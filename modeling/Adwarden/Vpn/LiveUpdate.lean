import Adwarden.Vpn.Handles

/-! Live configuration across a re-establish: what the running session has in force, and the edit
that falls between the new session's configuration and the assignment of its handle. -/
namespace Adwarden.Vpn
open Adwarden.Lib

variable {platform : Platform}

/-- The config collector has processed the latest settings, and no `reestablishTunnel` runs. -/
def Service.CaughtUp (s : Service) : Prop :=
  ∃ scope, s.shared.serviceScope = some scope ∧
    s.shared.last scope = some s.shared.settings ∧ s.tasks (.collector scope .config) = .idle ∧
    ∀ t, (s.tasks t).reestablishing = false

/-- Then the running session has the latest settings in force. -/
def Service.InForce (platform : Platform) (s : Service) : Prop :=
  s.CaughtUp → s.shared.nativeHandle ≠ 0 →
    s.shared.config s.shared.nativeHandle = s.shared.settings.native platform

/-- In `reestablishTunnel`, between the reading of the settings and the assignment of the handle. -/
def Pc.rebuilding : Pc → Bool
  | .reNative _ | .rePublish _ => true
  | _ => false

/-- The settings do not change between the moment `reestablishTunnel` reads them and the assignment
of the new handle, and do not return to the value the collector saw last while the session has
another in force; `startCapture` finds no scope of an earlier one. -/
def Timely (platform : Platform) (s : Service) : Event → Prop
  | .edit settings => settings ≠ s.shared.settings →
    (∀ t, (s.tasks t).rebuilding = false) ∧
    ∀ scope, s.shared.serviceScope = some scope → s.shared.last scope = some settings →
      s.shared.config s.shared.nativeHandle = settings.native platform
  | .start => s.shared.running = false → s.shared.serviceScope = none
  | _ => True

/-- The handle a config update in flight will be sent to. -/
def Pc.flight : Pc → Option ℕ
  | .resolve handle _ | .pushConfig handle _ => some handle
  | _ => none

/-- A session that was started and whose handle is not assigned yet. -/
def Pc.unpublished : Pc → Option ℕ
  | .startPublish handle | .rePublish handle => some handle
  | _ => none

/-- The configuration a session is about to be started with by `reestablishTunnel`. -/
def Pc.snapshot : Pc → Option NativeConfig
  | .reNative config => some config
  | _ => none

/-- The session that `reestablishTunnel` is about to publish. -/
def Pc.restarted : Pc → Option ℕ
  | .rePublish handle => some handle
  | _ => none

/-- In `startCapture`, between the assignment of the handle and the launch of the observers. -/
def Pc.opening : Pc → Bool
  | .startRunning | .startObservers => true
  | _ => false

/-- In `startCapture`, before the observers are launched. -/
def Pc.launching : Pc → Bool
  | .startTunnel | .startConfig | .startNative _ | .startPublish _ | .startRunning
  | .startObservers => true
  | _ => false

theorem Pc.no_snapshot {pc : Pc} (h : pc.snapshot = none) {n : NativeConfig} :
    ∀ c, pc.snapshot = some c → c = n := by
  simp [h]

theorem unpublished_of_restarted {pc : Pc} {x : ℕ} (h : pc.restarted = some x) :
    pc.unpublished = some x := by
  cases pc <;> first | exact h | cases h

/-- The settings a config update in flight carries are those its collector saw last. -/
def Carries (platform : Platform) (last : Option LiveConfig) : Pc → Prop
  | .resolve _ c => last = some c
  | .pushConfig _ n => ∃ c, last = some c ∧ n = c.native platform
  | _ => True

/-- The latest settings are on their way to the session. -/
def Sending (platform : Platform) (handle : ℕ) (settings : LiveConfig) (pc : Pc) : Prop :=
  pc = .resolve handle settings ∨ pc = .pushConfig handle (settings.native platform)

/-- The scopes handed out so far are cancelled, but for the one in use. -/
structure Scopes (s : Shared) : Prop where
  known : ∀ scope < s.nextScope, scope ∈ s.cancelled ∨ s.serviceScope = some scope
  current : ∀ scope, s.serviceScope = some scope → scope < s.nextScope ∧ scope ∉ s.cancelled
  past : ∀ scope ∈ s.cancelled, scope < s.nextScope
  future : ∀ scope, s.nextScope ≤ scope → s.last scope = none
  handle : s.nativeHandle < s.nextHandle

/-- What holds of one task. -/
structure Local (platform : Platform) (s : Shared) (t : TaskId) (pc : Pc) : Prop where
  launching : pc.launching = true → t = .main ∧ s.serviceScope = none
  flight : ∀ x, pc.flight = some x → x ≠ 0 ∧ x < s.nextHandle
  carries : ∀ x, pc.flight = some x → ∃ scope, t = .collector scope .config ∧
    Carries platform (s.last scope) pc
  unpublished : ∀ x, pc.unpublished = some x → x ≠ 0 ∧ x < s.nextHandle ∧ x ≠ s.nativeHandle
  foreign : ∀ scope, s.serviceScope = some scope → t ≠ .collector scope .config →
    pc.flight ≠ some s.nativeHandle
  snapshot : ∀ c, pc.snapshot = some c → c = s.settings.native platform
  started : ∀ x, pc.restarted = some x → s.config x = s.settings.native platform
  latest : ∀ scope, s.serviceScope = some scope → t = .collector scope .config →
    s.nativeHandle ≠ 0 → s.config s.nativeHandle = s.settings.native platform ∨
      s.last scope ≠ some s.settings ∨ Sending platform s.nativeHandle s.settings pc

structure Upd (platform : Platform) (s : Service) : Prop where
  scopes : Scopes s.shared
  task : ∀ t, Local platform s.shared t (s.tasks t)
  apart : ∀ t t' x, (s.tasks t).flight = some x → (s.tasks t').unpublished ≠ some x
  unique : ∀ t t' x, (s.tasks t).unpublished = some x → (s.tasks t').unpublished = some x → t = t'
  launched : (s.tasks .main).opening = true →
    ∀ t, (s.tasks t).flight ≠ some s.shared.nativeHandle

/-- The fields that matter for the configuration in force are the same. -/
structure SameConfig (s s' : Shared) : Prop where
  nativeHandle : s'.nativeHandle = s.nativeHandle
  serviceScope : s'.serviceScope = s.serviceScope
  nextScope : s'.nextScope = s.nextScope
  cancelled : s'.cancelled = s.cancelled
  settings : s'.settings = s.settings
  last : s'.last = s.last
  nextHandle : s'.nextHandle = s.nextHandle
  config : s'.config = s.config

theorem SameConfig.trans {s s' s'' : Shared} (h : SameConfig s s') (h' : SameConfig s' s'') :
    SameConfig s s'' :=
  ⟨h'.nativeHandle.trans h.nativeHandle, h'.serviceScope.trans h.serviceScope,
    h'.nextScope.trans h.nextScope, h'.cancelled.trans h.cancelled, h'.settings.trans h.settings,
    h'.last.trans h.last, h'.nextHandle.trans h.nextHandle, h'.config.trans h.config⟩

theorem sameConfig_record (s : Shared) (c : Call) : SameConfig s (s.record c) :=
  ⟨rfl, rfl, rfl, rfl, rfl, rfl, rfl, rfl⟩

theorem sameConfig_nativeStop (s : Shared) (x : ℕ) : SameConfig s (s.nativeStop x) := by
  unfold Shared.nativeStop
  split_ifs <;> exact ⟨rfl, rfl, rfl, rfl, rfl, rfl, rfl, rfl⟩

theorem sameConfig_unlock (s : Shared) (t : TaskId) : SameConfig s (s.unlock t) := by
  unfold Shared.unlock
  split_ifs <;> exact ⟨rfl, rfl, rfl, rfl, rfl, rfl, rfl, rfl⟩

theorem Scopes.congr {s s' : Shared} (h : Scopes s) (hs : SameConfig s s') : Scopes s' := by
  constructor
  · rw [hs.nextScope, hs.cancelled, hs.serviceScope]; exact h.known
  · rw [hs.nextScope, hs.cancelled, hs.serviceScope]; exact h.current
  · rw [hs.nextScope, hs.cancelled]; exact h.past
  · rw [hs.nextScope, hs.last]; exact h.future
  · rw [hs.nativeHandle, hs.nextHandle]; exact h.handle

theorem Local.congr {s s' : Shared} {t : TaskId} {pc : Pc} (h : Local platform s t pc)
    (hs : SameConfig s s') : Local platform s' t pc := by
  constructor
  · rw [hs.serviceScope]; exact h.launching
  · rw [hs.nextHandle]; exact h.flight
  · rw [hs.last]; exact h.carries
  · rw [hs.nextHandle, hs.nativeHandle]; exact h.unpublished
  · rw [hs.serviceScope, hs.nativeHandle]; exact h.foreign
  · rw [hs.settings]; exact h.snapshot
  · rw [hs.settings, hs.config]; exact h.started
  · rw [hs.serviceScope, hs.nativeHandle, hs.config, hs.settings, hs.last]; exact h.latest

/-- A point that carries no handle, outside the beginning of `startCapture`. -/
structure Pc.Plain (pc : Pc) : Prop where
  flight : pc.flight = none
  unpublished : pc.unpublished = none
  launching : pc.launching = false
  snapshot : pc.snapshot = none

/-- The points from which a step leads to a plain one and changes nothing that matters. -/
def Pc.passive : Pc → Bool
  | .startFilter | .startPush _ | .stopTest | .stopRead | .stopCall _ | .stopDone | .awaitLock _
  | .checkRunning | .reRead | .reStop _ | .reTunnel | .reFilter _ | .awaitRules _ | .reFirewall _
  | .awaitNetwork _ | .reNetwork _ | .reLogOpen _ | .push _ _ => true
  | _ => false

theorem advance_plain {s : Shared} {still : TaskId → Bool} {t : TaskId} {ok : Bool} {pc : Pc}
    {r : Shared × Pc} (hp : pc.passive = true)
    (hs : s.advance platform still t ok pc = some r) : SameConfig s r.1 ∧ r.2.Plain := by
  have hrefl : SameConfig s s := ⟨rfl, rfl, rfl, rfl, rfl, rfl, rfl, rfl⟩
  cases pc with
  | startFilter =>
    obtain rfl := Option.some.inj hs
    cases ok <;> exact ⟨hrefl, rfl, rfl, rfl, rfl⟩
  | stopTest =>
    obtain rfl := Option.some.inj hs
    refine ⟨hrefl, ?_⟩
    dsimp only
    split_ifs <;> exact ⟨rfl, rfl, rfl, rfl⟩
  | stopCall x | reStop x =>
    obtain rfl := Option.some.inj hs
    exact ⟨sameConfig_nativeStop _ _, rfl, rfl, rfl, rfl⟩
  | stopDone =>
    obtain rfl := Option.some.inj hs
    exact ⟨(sameConfig_record _ _).trans (sameConfig_unlock _ _), rfl, rfl, rfl, rfl⟩
  | awaitLock checked =>
    simp only [Shared.advance] at hs
    split_ifs at hs with hfree
    all_goals
      obtain rfl := Option.some.inj hs
      exact ⟨⟨rfl, rfl, rfl, rfl, rfl, rfl, rfl, rfl⟩, rfl, rfl, rfl, rfl⟩
  | checkRunning =>
    obtain rfl := Option.some.inj hs
    cases s.running && ok
    · exact ⟨sameConfig_unlock _ _, rfl, rfl, rfl, rfl⟩
    · exact ⟨hrefl, rfl, rfl, rfl, rfl⟩
  | reTunnel | stopRead | reRead =>
    obtain rfl := Option.some.inj hs
    cases ok <;> exact ⟨hrefl, rfl, rfl, rfl, rfl⟩
  | awaitRules x | awaitNetwork x =>
    obtain rfl := Option.some.inj hs
    exact ⟨hrefl, rfl, rfl, rfl, rfl⟩
  | reFilter x =>
    obtain rfl := Option.some.inj hs
    cases ok
    · exact ⟨hrefl, rfl, rfl, rfl, rfl⟩
    · exact ⟨sameConfig_record _ _, rfl, rfl, rfl, rfl⟩
  | startPush x | reFirewall x | reNetwork x | push kind x =>
    obtain rfl := Option.some.inj hs
    exact ⟨sameConfig_record _ _, rfl, rfl, rfl, rfl⟩
  | reLogOpen x =>
    obtain rfl := Option.some.inj hs
    exact ⟨((sameConfig_record _ _).trans (sameConfig_record _ _)).trans (sameConfig_unlock _ _),
      rfl, rfl, rfl, rfl⟩
  | _ => exact absurd hp Bool.false_ne_true

theorem flight_of_passive {pc : Pc} (h : pc.passive = true) : pc.flight = none := by
  cases pc <;> first | rfl | cases h

/-- What is asked of a point that carries no handle. -/
theorem Local.of_none {s : Shared} {t : TaskId} {pc : Pc} (hf : pc.flight = none)
    (hu : pc.unpublished = none) (hl : pc.launching = true → t = .main ∧ s.serviceScope = none)
    (hn : ∀ c, pc.snapshot = some c → c = s.settings.native platform)
    (hlatest : ∀ scope, s.serviceScope = some scope → t = .collector scope .config →
      s.nativeHandle ≠ 0 → s.config s.nativeHandle = s.settings.native platform ∨
        s.last scope ≠ some s.settings) : Local platform s t pc := by
  constructor
  · exact hl
  · rw [hf]; nofun
  · rw [hf]; nofun
  · rw [hu]; nofun
  · rw [hf]; nofun
  · exact hn
  · intro x hx
    rw [unpublished_of_restarted hx] at hu
    contradiction
  · intro scope hscope ht h0
    exact (hlatest scope hscope ht h0).imp id Or.inl

/-- A task with no update in flight has none to send. -/
theorem Local.settled {s : Shared} {t : TaskId} {pc : Pc} (h : Local platform s t pc)
    (hf : pc.flight = none) {scope : ℕ} (hscope : s.serviceScope = some scope)
    (ht : t = .collector scope .config) (h0 : s.nativeHandle ≠ 0) :
    s.config s.nativeHandle = s.settings.native platform ∨ s.last scope ≠ some s.settings := by
  rcases h.latest scope hscope ht h0 with h | h | rfl | rfl
  · exact Or.inl h
  · exact Or.inr h
  · cases hf
  · cases hf

namespace Upd

variable {s : Service} {t : TaskId} {sh : Shared} {pc' : Pc}

/-- A step to another point does not bring the main thread there. -/
theorem launched_before (hmain : ((s.setTask t (sh, pc')).tasks .main).opening = true)
    (hpc : pc'.opening = false) : (s.tasks .main).opening = true := by
  by_cases hm : t = .main
  · subst hm
    rw [Inv.tasks_self, hpc] at hmain
    contradiction
  · rwa [Inv.tasks_of_ne (Ne.symm hm)] at hmain

theorem set (h : Upd platform s) (hscopes : Scopes sh)
    (hothers : ∀ t', t' ≠ t → Local platform sh t' (s.tasks t'))
    (hself : Local platform sh t pc')
    (hflight : ∀ x, pc'.flight = some x → ∀ t', t' ≠ t → (s.tasks t').unpublished ≠ some x)
    (hunpub : ∀ x, pc'.unpublished = some x → ∀ t', t' ≠ t →
      (s.tasks t').flight ≠ some x ∧ (s.tasks t').unpublished ≠ some x)
    (hlaunched : ((s.setTask t (sh, pc')).tasks .main).opening = true →
      ∀ t', ((s.setTask t (sh, pc')).tasks t').flight ≠ some sh.nativeHandle) :
    Upd platform (s.setTask t (sh, pc')) := by
  constructor
  · exact hscopes
  · intro t'
    by_cases ht : t' = t
    · rw [ht, Inv.tasks_self]
      exact hself
    · rw [Inv.tasks_of_ne ht]
      exact hothers t' ht
  · intro t₁ t₂ x h₁ h₂
    by_cases ht₁ : t₁ = t <;> by_cases ht₂ : t₂ = t
    · rw [ht₁, Inv.tasks_self] at h₁
      rw [ht₂, Inv.tasks_self] at h₂
      cases pc' <;> simp [Pc.flight, Pc.unpublished] at h₁ h₂
    · rw [ht₁, Inv.tasks_self] at h₁
      rw [Inv.tasks_of_ne ht₂] at h₂
      exact hflight x h₁ t₂ ht₂ h₂
    · rw [Inv.tasks_of_ne ht₁] at h₁
      rw [ht₂, Inv.tasks_self] at h₂
      exact (hunpub x h₂ t₁ ht₁).1 h₁
    · rw [Inv.tasks_of_ne ht₁] at h₁
      rw [Inv.tasks_of_ne ht₂] at h₂
      exact h.apart t₁ t₂ x h₁ h₂
  · intro t₁ t₂ x h₁ h₂
    by_cases ht₁ : t₁ = t <;> by_cases ht₂ : t₂ = t
    · rw [ht₁, ht₂]
    · rw [ht₁, Inv.tasks_self] at h₁
      rw [Inv.tasks_of_ne ht₂] at h₂
      exact absurd h₂ (hunpub x h₁ t₂ ht₂).2
    · rw [Inv.tasks_of_ne ht₁] at h₁
      rw [ht₂, Inv.tasks_self] at h₂
      exact absurd h₁ (hunpub x h₂ t₁ ht₁).2
    · rw [Inv.tasks_of_ne ht₁] at h₁
      rw [Inv.tasks_of_ne ht₂] at h₂
      exact h.unique t₁ t₂ x h₁ h₂
  · exact hlaunched

/-- A step between points that carry no handle, which changes nothing that matters. -/
theorem quiet (h : Upd platform s) (hs : SameConfig s.shared sh)
    (hf : (s.tasks t).flight = none) (hf' : pc'.flight = none) (hu' : pc'.unpublished = none)
    (hl : pc'.launching = true → t = .main ∧ s.shared.serviceScope = none)
    (hn : ∀ c, pc'.snapshot = some c → c = s.shared.settings.native platform)
    (hrun : pc'.opening = true → (s.tasks t).opening = true) :
    Upd platform (s.setTask t (sh, pc')) := by
  refine h.set (h.scopes.congr hs) (fun t' _ => (h.task t').congr hs) ?_ (by simp [hf'])
    (by simp [hu']) ?_
  · refine Local.congr (Local.of_none hf' hu' hl hn ?_) hs
    intro scope hscope ht h0
    exact (h.task t).settled hf hscope ht h0
  · intro hmain t'
    rw [hs.nativeHandle]
    by_cases ht' : t' = t
    · rw [ht', Inv.tasks_self, hf']
      nofun
    · rw [Inv.tasks_of_ne ht']
      refine h.launched ?_ t'
      by_cases ht : t = .main
      · subst ht
        rw [Inv.tasks_self] at hmain
        exact hrun hmain
      · rwa [Inv.tasks_of_ne (Ne.symm ht)] at hmain

theorem plain (h : Upd platform s) (hs : SameConfig s.shared sh)
    (hf : (s.tasks t).flight = none) (hp : pc'.Plain) : Upd platform (s.setTask t (sh, pc')) := by
  refine h.quiet hs hf hp.flight hp.unpublished ?_ ?_ ?_
  · rw [hp.launching]
    nofun
  · rw [hp.snapshot]
    nofun
  · intro ho
    have := hp.launching
    cases pc' <;> contradiction

/-- A session is started, with the latest settings if `reestablishTunnel` starts it. -/
theorem nativeStart (h : Upd platform s) {c : NativeConfig}
    (hpc : pc' = .startPublish s.shared.nextHandle ∧ t = .main ∧ s.shared.serviceScope = none ∨
      pc' = .rePublish s.shared.nextHandle ∧ c = s.shared.settings.native platform)
    (hf : (s.tasks t).flight = none) :
    Upd platform (s.setTask t (s.shared.nativeStart t c, pc')) := by
  have hconfig : ∀ x < s.shared.nextHandle, (s.shared.nativeStart t c).config x =
      s.shared.config x := fun x hx => Function.update_of_ne (Nat.ne_of_lt hx) ..
  have hscopes := h.scopes
  have hu' : pc'.unpublished = some s.shared.nextHandle := by
    rcases hpc with ⟨rfl, -⟩ | ⟨rfl, -⟩ <;> rfl
  have hf' : pc'.flight = none := by rcases hpc with ⟨rfl, -⟩ | ⟨rfl, -⟩ <;> rfl
  have hothers : ∀ t', Local platform (s.shared.nativeStart t c) t' (s.tasks t') := by
    intro t'
    have hl := h.task t'
    refine ⟨hl.launching, ?_, hl.carries, ?_, hl.foreign, hl.snapshot, ?_, ?_⟩
    · intro x hx
      exact ⟨(hl.flight x hx).1, Nat.lt_succ_of_lt (hl.flight x hx).2⟩
    · intro x hx
      obtain ⟨h0, hlt, hne⟩ := hl.unpublished x hx
      exact ⟨h0, Nat.lt_succ_of_lt hlt, hne⟩
    · intro x hx
      rw [hconfig x (hl.unpublished x (unpublished_of_restarted hx)).2.1]
      exact hl.started x hx
    · intro scope hscope ht h0
      have := hl.latest scope hscope ht h0
      rwa [← hconfig _ hscopes.handle] at this
  refine h.set ?_ (fun t' _ => hothers t') ?_ (by simp [hf']) ?_ ?_
  · exact ⟨hscopes.known, hscopes.current, hscopes.past, hscopes.future,
      Nat.lt_succ_of_lt hscopes.handle⟩
  · have hlatest := fun scope (hscope : s.shared.serviceScope = some scope) ht h0 =>
      (hothers t).settled hf hscope ht h0
    have hnew : s.shared.nextHandle ≠ 0 ∧ s.shared.nextHandle < s.shared.nextHandle + 1 ∧
        s.shared.nextHandle ≠ s.shared.nativeHandle :=
      ⟨Nat.ne_of_gt (Nat.lt_of_le_of_lt (Nat.zero_le _) hscopes.handle), Nat.lt_succ_self _,
        Nat.ne_of_gt hscopes.handle⟩
    rcases hpc with ⟨rfl, hmain⟩ | ⟨rfl, rfl⟩
    · refine ⟨fun _ => hmain, nofun, nofun, ?_, nofun, Pc.no_snapshot rfl, nofun, ?_⟩
      · rintro x ⟨⟩
        exact hnew
      · exact fun scope hscope ht h0 => (hlatest scope hscope ht h0).imp id Or.inl
    · refine ⟨nofun, nofun, nofun, ?_, nofun, Pc.no_snapshot rfl, ?_, ?_⟩
      · rintro x ⟨⟩
        exact hnew
      · rintro x ⟨⟩
        exact Function.update_self ..
      · exact fun scope hscope ht h0 => (hlatest scope hscope ht h0).imp id Or.inl
  · intro x hx t' _
    obtain rfl := Option.some.inj (hu'.symm.trans hx)
    constructor
    · intro hx'
      exact Nat.lt_irrefl _ ((h.task t').flight _ hx').2
    · intro hx'
      exact Nat.lt_irrefl _ ((h.task t').unpublished _ hx').2.1
  · intro hmain t'
    by_cases ht' : t' = t
    · rw [ht', Inv.tasks_self, hf']
      nofun
    · rw [Inv.tasks_of_ne ht']
      rcases hpc with ⟨rfl, -⟩ | ⟨rfl, -⟩ <;>
        exact h.launched (launched_before hmain rfl) t'

/-- `nativeHandle` is assigned 0, or a session that has the latest settings if there are
observers. -/
theorem assign (h : Upd platform s) {x : ℕ} (hlt : x < s.shared.nextHandle)
    (hflight : ∀ t', (s.tasks t').flight ≠ some x)
    (hunpub : ∀ t', t' ≠ t → (s.tasks t').unpublished ≠ some x)
    (hlatest : x ≠ 0 → ∀ scope, s.shared.serviceScope = some scope →
      s.shared.config x = s.shared.settings.native platform)
    (hf' : pc'.flight = none) (hu' : pc'.unpublished = none) (hn : pc'.snapshot = none)
    (hl : pc'.launching = true → t = .main ∧ s.shared.serviceScope = none) :
    Upd platform (s.setTask t ({ s.shared with nativeHandle := x }, pc')) := by
  have hscopes := h.scopes
  refine h.set ?_ ?_ ?_ (by simp [hf']) (by simp [hu']) ?_
  · exact ⟨hscopes.known, hscopes.current, hscopes.past, hscopes.future, hlt⟩
  · intro t' ht'
    have ht := h.task t'
    refine ⟨ht.launching, ht.flight, ht.carries, ?_, fun _ _ _ => hflight t', ht.snapshot,
      ht.started, ?_⟩
    · intro y hy
      obtain ⟨h0, hlt, -⟩ := ht.unpublished y hy
      exact ⟨h0, hlt, fun hyx => hunpub t' ht' (hy.trans (congrArg some hyx))⟩
    · exact fun scope hscope _ h0 => Or.inl (hlatest h0 scope hscope)
  · refine Local.of_none hf' hu' hl (by simp [hn]) ?_
    exact fun scope hscope _ h0 => Or.inl (hlatest h0 scope hscope)
  · intro _ t'
    by_cases ht' : t' = t
    · rw [ht', Inv.tasks_self, hf']
      nofun
    · rw [Inv.tasks_of_ne ht']
      exact hflight t'

theorem publish (h : Upd platform s) {x : ℕ} (hx : (s.tasks t).unpublished = some x)
    (hlatest : ∀ scope, s.shared.serviceScope = some scope →
      s.shared.config x = s.shared.settings.native platform)
    (hf' : pc'.flight = none) (hu' : pc'.unpublished = none) (hn : pc'.snapshot = none)
    (hl : pc'.launching = true → t = .main ∧ s.shared.serviceScope = none) :
    Upd platform (s.setTask t ({ s.shared with nativeHandle := x }, pc')) := by
  refine h.assign ((h.task t).unpublished x hx).2.1 ?_ ?_ (fun _ => hlatest) hf' hu' hn hl
  · exact fun t' hx' => h.apart t' t x hx' hx
  · exact fun t' hne hx' => hne (h.unique t' t x hx' hx)

theorem clear (h : Upd platform s) (hf' : pc'.flight = none) (hu' : pc'.unpublished = none)
    (hn : pc'.snapshot = none) (hl : pc'.launching = false) :
    Upd platform (s.setTask t ({ s.shared with nativeHandle := 0 }, pc')) := by
  refine h.assign (Nat.lt_of_le_of_lt (Nat.zero_le _) h.scopes.handle) ?_ ?_ (by simp) hf' hu' hn
    (by simp [hl])
  · exact fun t' hx => ((h.task t').flight 0 hx).1 rfl
  · exact fun t' _ hx => ((h.task t').unpublished 0 hx).1 rfl

theorem markStopped (h : Upd platform s) :
    Upd platform (s.setTask t (s.shared.markStopped, .stopTest)) := by
  have hscopes := h.scopes
  refine h.set ?_ ?_ (Local.of_none rfl rfl nofun (Pc.no_snapshot rfl) nofun) nofun nofun ?_
  · refine ⟨?_, nofun, ?_, hscopes.future, hscopes.handle⟩
    · intro scope hlt
      refine Or.inl (List.mem_append.mpr ?_)
      rcases hscopes.known scope hlt with hc | hc
      · exact Or.inr hc
      · exact Or.inl (by simp [hc])
    · intro scope hc
      rcases List.mem_append.mp hc with hc | hc
      · exact (hscopes.current scope (by simpa using hc)).1
      · exact hscopes.past scope hc
  · intro t' _
    have ht := h.task t'
    exact ⟨fun hl => ⟨(ht.launching hl).1, rfl⟩, ht.flight, ht.carries, ht.unpublished, nofun,
      ht.snapshot, ht.started, nofun⟩
  · intro hmain t'
    by_cases ht' : t' = t
    · rw [ht', Inv.tasks_self]
      nofun
    · rw [Inv.tasks_of_ne ht']
      exact h.launched (launched_before hmain rfl) t'

/-- The observers of a new scope have seen nothing yet. -/
theorem launchObservers (h : Upd platform s) (hpc : s.tasks t = .startObservers) :
    Upd platform (s.setTask t (s.shared.launchObservers, .startFilter)) := by
  have hscopes := h.scopes
  obtain ⟨rfl, hnone⟩ := (h.task t).launching (by rw [hpc]; rfl)
  refine h.set ?_ ?_ (Local.of_none rfl rfl nofun (Pc.no_snapshot rfl) nofun) nofun nofun ?_
  · refine ⟨?_, ?_, ?_, ?_, hscopes.handle⟩
    · intro scope hlt
      rcases Nat.lt_succ_iff_lt_or_eq.mp hlt with hlt | rfl
      · refine (hscopes.known scope hlt).imp id fun hc => ?_
        rw [hnone] at hc
        contradiction
      · exact Or.inr rfl
    · rintro scope ⟨⟩
      exact ⟨Nat.lt_succ_self _, fun hc => Nat.lt_irrefl _ (hscopes.past _ hc)⟩
    · exact fun scope hc => Nat.lt_succ_of_lt (hscopes.past scope hc)
    · exact fun scope hle => hscopes.future scope (Nat.le_of_succ_le hle)
  · intro t' hne
    have ht := h.task t'
    refine ⟨fun hl => absurd (ht.launching hl).1 hne, ht.flight, ht.carries, ht.unpublished, ?_,
      ht.snapshot, ht.started, ?_⟩
    · exact fun _ _ _ => h.launched (by rw [hpc]; rfl) t'
    · rintro scope ⟨⟩ _ _
      rw [Shared.launchObservers, hscopes.future _ (Nat.le_refl _)]
      exact Or.inr (Or.inl nofun)
  · intro hmain
    rw [Inv.tasks_self] at hmain
    contradiction

/-- The collector of the scope in use takes the latest settings. -/
theorem emitConfig (h : Upd platform s) {scope : ℕ} (hscope : s.shared.serviceScope = some scope)
    (ht : t = .collector scope .config) (hpc : s.tasks t = .idle) :
    Upd platform (s.setTask t
      ({ s.shared with last := Function.update s.shared.last scope (some s.shared.settings) },
        if s.shared.nativeHandle = 0 then .idle
        else .resolve s.shared.nativeHandle s.shared.settings)) := by
  subst ht
  have hscopes := h.scopes
  have hlast : ∀ scope', scope' ≠ scope →
      Function.update s.shared.last scope (some s.shared.settings) scope' =
        s.shared.last scope' := fun scope' hne => Function.update_of_ne hne ..
  have hflight : ∀ x, (if s.shared.nativeHandle = 0 then Pc.idle
      else .resolve s.shared.nativeHandle s.shared.settings).flight = some x →
      s.shared.nativeHandle ≠ 0 ∧ x = s.shared.nativeHandle := by
    intro x hx
    split_ifs at hx with h0
    · cases hx
    · exact ⟨h0, (Option.some.inj hx).symm⟩
  refine h.set ?_ ?_ ?_ ?_ ?_ ?_
  · refine ⟨hscopes.known, hscopes.current, hscopes.past, ?_, hscopes.handle⟩
    intro scope' hle
    refine (hlast scope' ?_).trans (hscopes.future scope' hle)
    rintro rfl
    exact absurd (hscopes.current _ hscope).1 (Nat.not_lt.mpr hle)
  · intro t' hne
    have ht' := h.task t'
    refine ⟨ht'.launching, ht'.flight, ?_, ht'.unpublished, ht'.foreign, ht'.snapshot,
      ht'.started, ?_⟩
    · intro x hx
      obtain ⟨scope', rfl, hc⟩ := ht'.carries x hx
      have hs : scope' ≠ scope := by
        rintro rfl
        exact hne rfl
      exact ⟨scope', rfl, by simpa only [hlast scope' hs] using hc⟩
    · intro scope' hscope' heq
      obtain rfl := Option.some.inj (hscope.symm.trans hscope')
      exact absurd heq hne
  · refine ⟨?_, ?_, ?_, ?_, ?_, ?_, ?_, ?_⟩
    · split_ifs <;> nofun
    · intro x hx
      obtain ⟨h0, rfl⟩ := hflight x hx
      exact ⟨h0, hscopes.handle⟩
    · intro x hx
      obtain ⟨h0, -⟩ := hflight x hx
      refine ⟨scope, rfl, ?_⟩
      rw [if_neg h0]
      exact Function.update_self ..
    · split_ifs <;> nofun
    · intro scope' hscope' hne
      obtain rfl := Option.some.inj (hscope.symm.trans hscope')
      exact absurd rfl hne
    · split_ifs <;> nofun
    · split_ifs <;> nofun
    · intro _ _ _ h0
      have h0 : s.shared.nativeHandle ≠ 0 := h0
      rw [if_neg h0]
      exact Or.inr (Or.inr (Or.inl rfl))
  · intro x hx t' _ hx'
    exact ((h.task t').unpublished x hx').2.2 (hflight x hx).2
  · split_ifs <;> nofun
  · intro hmain
    rw [@Inv.tasks_of_ne _ _ _ .main (by simp)] at hmain
    have hl : (s.tasks .main).launching = true := by
      cases hpc : s.tasks .main <;> rw [hpc] at hmain <;> first | rfl | contradiction
    rw [((h.task .main).launching hl).2] at hscope
    contradiction

/-- The update in flight has its names resolved. -/
theorem resolved (h : Upd platform s) {x : ℕ} {c : LiveConfig}
    (hpc : s.tasks t = .resolve x c) :
    Upd platform (s.setTask t (s.shared, .pushConfig x (c.native platform))) := by
  have ht := h.task t
  rw [hpc] at ht
  refine h.set h.scopes (fun t' _ => h.task t') ?_ ?_ nofun ?_
  · refine ⟨nofun, ht.flight, ?_, nofun, ht.foreign, Pc.no_snapshot rfl, nofun, ?_⟩
    · intro y hy
      obtain ⟨scope, hscope, hc⟩ := ht.carries y hy
      exact ⟨scope, hscope, c, hc, rfl⟩
    · intro scope hscope heq h0
      refine (ht.latest scope hscope heq h0).imp id (Or.imp id ?_)
      rintro (hc | hc)
      · cases hc
        exact Or.inr rfl
      · cases hc
  · intro y hy t' _
    exact h.apart t t' y (by rw [hpc]; exact hy)
  · intro hmain t'
    have hl := launched_before hmain rfl
    by_cases ht' : t' = t
    · subst ht'
      rw [Inv.tasks_self]
      have := h.launched hl t'
      rwa [hpc] at this
    · rw [Inv.tasks_of_ne ht']
      exact h.launched hl t'

/-- The update in flight reaches its session. -/
theorem pushed (h : Upd platform s) {x : ℕ} {n : NativeConfig}
    (hpc : s.tasks t = .pushConfig x n) :
    Upd platform (s.setTask t (s.shared.nativeUpdateConfig x n, .idle)) := by
  have ht := h.task t
  rw [hpc] at ht
  have hscopes := h.scopes
  have hconfig : ∀ y, y ≠ x → (s.shared.nativeUpdateConfig x n).config y = s.shared.config y :=
    fun y hy => Function.update_of_ne hy ..
  refine h.set ?_ ?_ (Local.of_none rfl rfl nofun (Pc.no_snapshot rfl) ?_) nofun nofun ?_
  · exact ⟨hscopes.known, hscopes.current, hscopes.past, hscopes.future, hscopes.handle⟩
  · intro t' hne
    have ht' := h.task t'
    refine ⟨ht'.launching, ht'.flight, ht'.carries, ht'.unpublished, ht'.foreign, ht'.snapshot,
      ?_, ?_⟩
    · intro y hy
      rw [hconfig]
      · exact ht'.started y hy
      · rintro rfl
        exact h.apart t t' y (by rw [hpc]; rfl) (unpublished_of_restarted hy)
    · intro scope hscope heq h0
      have := ht'.latest scope hscope heq h0
      rwa [← hconfig] at this
      rintro hx
      refine ht.foreign scope hscope ?_ (congrArg some hx.symm)
      rintro rfl
      exact hne heq
  · intro scope hscope heq h0
    have h0 : s.shared.nativeHandle ≠ 0 := h0
    change (s.shared.nativeUpdateConfig x n).config s.shared.nativeHandle =
      s.shared.settings.native platform ∨ s.shared.last scope ≠ some s.shared.settings
    by_cases hx : x = s.shared.nativeHandle
    · obtain ⟨scope', heq', c, hlast, rfl⟩ := ht.carries x rfl
      obtain rfl : scope' = scope := by
        rw [heq] at heq'
        cases heq'
        rfl
      by_cases hc : c = s.shared.settings
      · left
        rw [← hx, ← hc]
        exact Function.update_self ..
      · right
        rw [hlast]
        exact fun heq => hc (Option.some.inj heq)
    · rw [hconfig _ (Ne.symm hx)]
      refine (ht.latest scope hscope heq h0).imp id ?_
      rintro (hl | hl | hl)
      · exact hl
      · cases hl
      · cases hl
        exact absurd rfl hx
  · intro hmain t'
    have hl := launched_before hmain rfl
    by_cases ht' : t' = t
    · rw [ht', Inv.tasks_self]
      nofun
    · rw [Inv.tasks_of_ne ht']
      exact h.launched hl t'

theorem abort_step (h : Upd platform s) {r : Shared × Pc}
    (hs : s.shared.abort t (s.tasks t) = some r) : Upd platform (s.setTask t r) := by
  have hsame := (sameConfig_record s.shared (.returned t)).trans (sameConfig_unlock _ t)
  unfold Shared.abort at hs
  split_ifs at hs with hcancel
  cases hpc : s.tasks t with
  | resolve x c =>
    rw [hpc] at hs
    obtain rfl := Option.some.inj hs
    obtain ⟨scope, rfl, -⟩ := (h.task t).carries x (by rw [hpc]; rfl)
    have hc : scope ∈ s.shared.cancelled := by
      simpa [Shared.isCancelled, TaskId.scope] using hcancel
    refine h.set h.scopes (fun t' _ => h.task t')
      (Local.of_none rfl rfl nofun (Pc.no_snapshot rfl) ?_) nofun nofun ?_
    · rintro scope' hscope' ⟨⟩
      exact absurd hc (h.scopes.current _ hscope').2
    · intro hmain t'
      by_cases ht' : t' = .collector scope .config
      · rw [ht', Inv.tasks_self]
        nofun
      · rw [Inv.tasks_of_ne ht']
        exact h.launched (launched_before hmain rfl) t'
  | awaitLock checked =>
    rw [hpc] at hs
    obtain rfl := Option.some.inj hs
    exact h.plain ⟨rfl, rfl, rfl, rfl, rfl, rfl, rfl, rfl⟩ (by rw [hpc]; rfl) ⟨rfl, rfl, rfl, rfl⟩
  | awaitRules x =>
    rw [hpc] at hs
    obtain rfl := Option.some.inj hs
    exact h.plain hsame (by rw [hpc]; rfl) ⟨rfl, rfl, rfl, rfl⟩
  | awaitNetwork x =>
    rw [hpc] at hs
    obtain rfl := Option.some.inj hs
    exact h.plain hsame (by rw [hpc]; rfl) ⟨rfl, rfl, rfl, rfl⟩
  | _ =>
    rw [hpc] at hs
    contradiction

theorem run_step (h : Upd platform s) {still : TaskId → Bool} {ok : Bool} {pc : Pc}
    {r : Shared × Pc} (hpc : s.tasks t = pc)
    (hs : s.shared.advance platform still t ok pc = some r) : Upd platform (s.setTask t r) := by
  have ht := h.task t
  rw [hpc] at ht
  cases hp : pc.passive with
  | true =>
    obtain ⟨hsame, hr⟩ := advance_plain hp hs
    exact h.plain hsame (by rw [hpc, flight_of_passive hp]) hr
  | false =>
    have hrefl : SameConfig s.shared s.shared := ⟨rfl, rfl, rfl, rfl, rfl, rfl, rfl, rfl⟩
    have hf : (s.tasks t).flight = pc.flight := by rw [hpc]
    cases pc with
    | idle => contradiction
    | startTunnel =>
      obtain rfl := Option.some.inj hs
      cases ok with
      | false => exact h.plain hrefl hf ⟨rfl, rfl, rfl, rfl⟩
      | true =>
        exact h.quiet hrefl hf rfl rfl (fun _ => ht.launching rfl) (Pc.no_snapshot rfl) nofun
    | startConfig =>
      obtain rfl := Option.some.inj hs
      exact h.quiet hrefl hf rfl rfl (fun _ => ht.launching rfl) (Pc.no_snapshot rfl) nofun
    | startNative config =>
      obtain rfl := Option.some.inj hs
      cases ok with
      | false => exact h.plain hrefl hf ⟨rfl, rfl, rfl, rfl⟩
      | true => exact h.nativeStart (Or.inl ⟨rfl, ht.launching rfl⟩) hf
    | startPublish x =>
      obtain rfl := Option.some.inj hs
      refine h.publish (by rw [hpc]; rfl) ?_ rfl rfl rfl fun _ => ht.launching rfl
      intro scope hscope
      rw [(ht.launching rfl).2] at hscope
      contradiction
    | startRunning =>
      obtain rfl := Option.some.inj hs
      exact h.quiet ⟨rfl, rfl, rfl, rfl, rfl, rfl, rfl, rfl⟩ hf rfl rfl
        (fun _ => ht.launching rfl) (Pc.no_snapshot rfl) fun _ => by rw [hpc]; rfl
    | startObservers =>
      obtain rfl := Option.some.inj hs
      exact h.launchObservers hpc
    | stopMark =>
      obtain rfl := Option.some.inj hs
      exact h.markStopped
    | stopClear =>
      obtain rfl := Option.some.inj hs
      exact h.clear rfl rfl rfl rfl
    | reClear =>
      obtain rfl := Option.some.inj hs
      exact h.clear rfl rfl rfl rfl
    | reConfig =>
      obtain rfl := Option.some.inj hs
      refine h.quiet hrefl hf rfl rfl nofun ?_ nofun
      rintro c ⟨⟩
      rfl
    | reNative config =>
      obtain rfl := Option.some.inj hs
      cases ok with
      | false => exact h.plain hrefl hf ⟨rfl, rfl, rfl, rfl⟩
      | true => exact h.nativeStart (Or.inr ⟨rfl, ht.snapshot config rfl⟩) hf
    | rePublish x =>
      obtain rfl := Option.some.inj hs
      exact h.publish (by rw [hpc]; rfl) (fun _ _ => ht.started x rfl) rfl rfl rfl nofun
    | resolve x c =>
      obtain rfl := Option.some.inj hs
      exact h.resolved hpc
    | pushConfig x n =>
      obtain rfl := Option.some.inj hs
      exact h.pushed hpc
    | _ => exact absurd hp.symm Bool.false_ne_true

theorem emit_step (h : Upd platform s) {scope : ℕ} {observer : Observer} {r : Shared × Pc}
    (hlt : scope < s.shared.nextScope) (hc : s.shared.cancelled.contains scope = false)
    (hpc : s.tasks (.collector scope observer) = .idle)
    (hs : s.shared.emit scope observer = some r) :
    Upd platform (s.setTask (.collector scope observer) r) := by
  have hscope : s.shared.serviceScope = some scope :=
    (h.scopes.known scope hlt).resolve_left (by simpa using hc)
  have hf : (s.tasks (.collector scope observer)).flight = none := by rw [hpc]; rfl
  have hrefl : SameConfig s.shared s.shared := ⟨rfl, rfl, rfl, rfl, rfl, rfl, rfl, rfl⟩
  cases observer with
  | config =>
    simp only [Shared.emit] at hs
    by_cases hlast : s.shared.last scope = some s.shared.settings
    · rw [if_pos hlast] at hs
      contradiction
    · rw [if_neg hlast] at hs
      obtain rfl := Option.some.inj hs
      exact h.emitConfig hscope rfl hpc
  | proxy =>
    obtain rfl := Option.some.inj hs
    cases s.shared.running <;> exact h.plain hrefl hf ⟨rfl, rfl, rfl, rfl⟩
  | filter | firewall | network | logOpen =>
    obtain rfl := Option.some.inj hs
    refine h.plain hrefl hf ?_
    split_ifs <;> exact ⟨rfl, rfl, rfl, rfl⟩

/-- The settings are edited while no new session is between its snapshot and its handle. -/
theorem edit (h : Upd platform s) {settings : LiveConfig}
    (hquiet : ∀ t, (s.tasks t).rebuilding = false)
    (hback : ∀ scope, s.shared.serviceScope = some scope → s.shared.last scope = some settings →
      s.shared.config s.shared.nativeHandle = settings.native platform) :
    Upd platform { s with shared := { s.shared with settings := settings } } := by
  have hscopes := h.scopes
  refine ⟨⟨hscopes.known, hscopes.current, hscopes.past, hscopes.future, hscopes.handle⟩, ?_,
    h.apart, h.unique, h.launched⟩
  intro t
  have ht := h.task t
  refine ⟨ht.launching, ht.flight, ht.carries, ht.unpublished, ht.foreign, ?_, ?_, ?_⟩
  · intro c hc
    have hq := hquiet t
    cases hpc : s.tasks t <;> rw [hpc] at hc hq <;> contradiction
  · intro x hx
    have hq := hquiet t
    have hx : (s.tasks t).restarted = some x := hx
    cases hpc : s.tasks t <;> rw [hpc] at hx hq <;> contradiction
  · intro scope hscope _ _
    by_cases hlast : s.shared.last scope = some settings
    · exact Or.inl (hback scope hscope hlast)
    · exact Or.inr (Or.inl hlast)

theorem step (h : Upd platform s) {e : Event} {s' : Service} (htimely : Timely platform s e)
    (hs : s.step platform e = some s') : Upd platform s' := by
  have hrefl : SameConfig s.shared s.shared := ⟨rfl, rfl, rfl, rfl, rfl, rfl, rfl, rfl⟩
  cases e with
  | start =>
    simp only [Service.step] at hs
    split_ifs at hs with hidle hrun
    · obtain rfl := Option.some.inj hs
      exact h.plain hrefl (by rw [hidle]; rfl) ⟨rfl, rfl, rfl, rfl⟩
    · obtain rfl := Option.some.inj hs
      rw [Bool.not_eq_true] at hrun
      exact h.quiet hrefl (by rw [hidle]; rfl) rfl rfl (fun _ => ⟨rfl, htimely hrun⟩)
        (Pc.no_snapshot rfl) (fun h => by cases h)
  | stop =>
    simp only [Service.step] at hs
    split_ifs at hs with hidle
    obtain rfl := Option.some.inj hs
    exact h.plain hrefl (by rw [hidle]; rfl) ⟨rfl, rfl, rfl, rfl⟩
  | network n =>
    simp only [Service.step] at hs
    cases hscope : s.shared.serviceScope with
    | none =>
      rw [hscope] at hs
      contradiction
    | some scope =>
      rw [hscope] at hs
      simp only at hs
      split_ifs at hs with hidle
      obtain rfl := Option.some.inj hs
      exact h.plain hrefl (by rw [hidle.2]; rfl) ⟨rfl, rfl, rfl, rfl⟩
  | edit settings =>
    obtain rfl := Option.some.inj hs
    by_cases hne : settings = s.shared.settings
    · subst hne
      exact h
    · exact h.edit (htimely hne).1 (htimely hne).2
  | emit scope observer =>
    simp only [Service.step] at hs
    split_ifs at hs with hidle
    obtain ⟨r, hr, rfl⟩ := Option.map_eq_some_iff.mp hs
    exact h.emit_step hidle.1 hidle.2.1 hidle.2.2 hr
  | run t ok =>
    obtain ⟨r, hr, rfl⟩ := Option.map_eq_some_iff.mp hs
    exact h.run_step rfl hr
  | abort t =>
    obtain ⟨r, hr, rfl⟩ := Option.map_eq_some_iff.mp hs
    exact h.abort_step hr

theorem created (platform : Platform) (settings : LiveConfig) :
    Upd platform (Service.created platform settings) := by
  refine ⟨⟨nofun, nofun, nofun, fun _ _ => rfl, Nat.one_pos⟩, fun t => ?_, nofun, nofun, nofun⟩
  exact Local.of_none rfl rfl nofun (Pc.no_snapshot rfl) nofun

theorem inForce (h : Upd platform s) : s.InForce platform := by
  rintro ⟨scope, hscope, hlast, hidle, -⟩ h0
  have := (h.task (.collector scope .config)).settled (by rw [hidle]; rfl) hscope rfl h0
  exact this.resolve_right (not_not_intro hlast)

end Upd

/-- In a run whose edits do not fall between a new session's configuration and its handle, the
running session has the latest settings in force once the collector has processed them. -/
theorem timely_inForce (platform : Platform) (settings : LiveConfig) {es : List Event}
    {s : Service} (hs : (service platform settings).run es = some s)
    (ht : (service platform settings).EachStep (Timely platform)
      (service platform settings).init es) : s.InForce platform :=
  (Automaton.EachStep.runFrom (fun _ _ _ h ht hs => Upd.step h ht hs) ht
    (Upd.created platform settings) hs).inForce

/-- The collector processes the initial settings; the proxy settings change. -/
def reestablish : List Event :=
  [.emit 0 .config, .run (.collector 0 .config) true, .run (.collector 0 .config) true,
    .emit 0 .proxy, .run (.collector 0 .proxy) true, .run (.collector 0 .proxy) true,
    .run (.collector 0 .proxy) true, .run (.collector 0 .proxy) true,
    .run (.collector 0 .proxy) true, .run (.collector 0 .proxy) true]

/-- The new session is started and published, without a compiled engine. -/
def published : List Event :=
  [.run (.collector 0 .proxy) true, .run (.collector 0 .proxy) true,
    .run (.collector 0 .proxy) false, .run (.collector 0 .proxy) true,
    .run (.collector 0 .proxy) true, .run (.collector 0 .proxy) true,
    .run (.collector 0 .proxy) true, .run (.collector 0 .proxy) true]

def blockEncryptedDns : LiveConfig := { defaultSettings with encryptedDnsMode := .block }

/-- The settings change once the new session is published, and the collector catches up. -/
def editPublished : List Event :=
  startup ++ reestablish ++ published ++ [.edit blockEncryptedDns] ++ configPush

private theorem editPublished_timely : (service offline defaultSettings).EachStep (Timely offline)
    (service offline defaultSettings).init editPublished := by
  refine ⟨fun _ => rfl, trivial, trivial, trivial, trivial, trivial, trivial, trivial, trivial,
    trivial, trivial, trivial, trivial, trivial, trivial, trivial, trivial, trivial, trivial,
    trivial, trivial, trivial, trivial, trivial, trivial, trivial, ?_, trivial, trivial, trivial,
    trivial⟩
  intro _
  constructor
  · exact TaskId.forall_first rfl (fun observer => by cases observer <;> rfl) (fun _ _ => rfl)
      fun _ _ => rfl
  · rintro scope ⟨⟩ hlast
    exact absurd (Option.some.inj hlast) (by decide)

private theorem editPublished_caughtUp : ∃ s,
    (service offline defaultSettings).run editPublished = some s ∧ s.CaughtUp ∧
      s.shared.nativeHandle = 2 ∧ s.shared.settings = blockEncryptedDns := by
  refine ⟨_, rfl, ⟨0, rfl, rfl, rfl, ?_⟩, rfl, rfl⟩
  exact TaskId.forall_first rfl (fun observer => by cases observer <;> rfl) (fun _ _ => rfl)
    fun _ _ => rfl

theorem timely_inForce_reestablish :
    ∃ s, (service offline defaultSettings).run editPublished = some s ∧ s.CaughtUp ∧
      s.shared.nativeHandle = 2 ∧ s.shared.config 2 = blockEncryptedDns.native offline := by
  obtain ⟨s, hs, hup, handle, hsettings⟩ := editPublished_caughtUp
  have hforce := timely_inForce offline defaultSettings hs editPublished_timely hup
    (by rw [handle]; decide)
  rw [handle, hsettings] at hforce
  exact ⟨s, hs, hup, handle, hforce⟩

/-- The user blocks encrypted DNS after `reestablishTunnel` has read the settings. The collector
finds no handle and drops the update; the new session runs with encrypted DNS let through. -/
theorem edit_lost_reestablishing :
    ¬ ∀ (platform : Platform) (settings : LiveConfig) (es : List Event) (s : Service),
      (service platform settings).run es = some s → s.InForce platform := by
  intro h
  have hs := h offline defaultSettings
    (startup ++ reestablish ++ [.edit blockEncryptedDns, .emit 0 .config] ++ published) _ rfl
  have hidle : ∀ s : Service, (service offline defaultSettings).run (startup ++ reestablish ++
      [.edit blockEncryptedDns, .emit 0 .config] ++ published) = some s → s.CaughtUp := by
    rintro s ⟨⟩
    refine ⟨0, rfl, rfl, rfl, ?_⟩
    exact TaskId.forall_first rfl (fun observer => by cases observer <;> rfl) (fun _ _ => rfl)
      fun _ _ => rfl
  exact absurd (hs (hidle _ rfl) (by decide)) (by decide)

end Adwarden.Vpn
