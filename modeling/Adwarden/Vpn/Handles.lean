import Adwarden.Vpn.Service

/-! Linear use of session handles: it holds in every run whose lifecycle operations exclude each
other, and fails when the main thread stops a session that a coroutine is about to stop. -/
namespace Adwarden.Vpn
open Adwarden.Lib

def stops (log : List Call) : List ℕ :=
  log.filterMap fun c => match c with
    | .stop handle => some handle
    | _ => none

def starts (log : List Call) : List ℕ :=
  log.filterMap fun c => match c with
    | .start _ handle => some handle
    | _ => none

/-- Sessions are stopped once and not used afterwards, and outlive no completed `stopEverything`:
neither those started before it, nor those that a `reestablishTunnel` still running then has
started by the time it returns. -/
structure Linear (log : List Call) : Prop where
  once : log.Pairwise fun c c' => ∀ handle, c = .stop handle → c' ≠ .stop handle
  unused : log.Pairwise fun c c' => ∀ handle kind, c = .stop handle → c' ≠ .update kind handle
  earlier : ∀ a still b, log = a ++ .stopped still :: b → ∀ handle ∈ starts a, handle ∈ stops a
  running : ∀ a still b, log = a ++ .stopped still :: b → ∀ t, still t = true →
    ∀ b₁ b₂ handle, b = b₁ ++ .returned t :: b₂ → .returned t ∉ b₁ → .start t handle ∈ b₁ →
      handle ∈ stops b₁

/-- Inside `startCapture`. -/
def Pc.starting : Pc → Bool
  | .startTunnel | .startConfig | .startNative _ | .startPublish _ | .startRunning
  | .startObservers | .startFilter | .startPush _ => true
  | _ => false

/-- Inside `stopEverything`, from its test of the handle on. -/
def Pc.stopping : Pc → Bool
  | .stopTest | .stopRead | .stopCall _ | .stopClear | .stopDone => true
  | _ => false

/-- Inside an operation on the session. -/
def Pc.critical (pc : Pc) : Bool := pc.starting || pc.stopping || pc.reestablishing

/-- The handle that a collector has read and not yet used. -/
def Pc.holds : Pc → Option ℕ
  | .resolve handle _ | .pushConfig handle _ | .push _ handle => some handle
  | _ => none

def Service.Quiet (s : Service) : Prop := ∀ t, (s.tasks t).critical = false

/-- Operations on the session exclude each other, a stopped service is not re-established, no
handle is stopped while a collector holds it, and none is read between its `nativeStop` and the
assignment that follows. -/
def Exclusive (s : Service) : Event → Prop
  | .start => s.shared.running = false → s.Quiet
  | .emit _ observer => observer ≠ .proxy → ∀ t, s.tasks t ≠ .stopClear ∧ s.tasks t ≠ .reClear
  | .run t ok =>
    match s.tasks t with
    | .stopMark => s.Quiet
    | .awaitLock true => s.shared.running = true ∧ s.Quiet
    | .checkRunning => s.shared.running = true → ok = true → s.Quiet
    | .stopCall handle | .reStop handle => ∀ t', (s.tasks t').holds ≠ some handle
    | _ => True
  | _ => True

namespace Shared

def Live (s : Shared) (handle : ℕ) : Prop :=
  handle ∈ starts s.log ∧ handle ∉ stops s.log

/-- Every session but this one has been stopped. -/
def OnlyLive (s : Shared) (handle : ℕ) : Prop :=
  ∀ h ∈ starts s.log, h ≠ handle → h ∈ stops s.log

/-- The handle is that of the only live session, or there is none. -/
structure Settled (s : Shared) : Prop where
  live : s.nativeHandle = 0 ∨ s.Live s.nativeHandle
  only : s.OnlyLive s.nativeHandle

/-- Where the sessions are while an operation on them is under way. -/
def Phase (s : Shared) : Pc → Prop
  | .startTunnel | .startConfig | .startNative _ => s.nativeHandle = 0 ∧ s.OnlyLive 0
  | .startPublish handle => s.nativeHandle = 0 ∧ s.Live handle ∧ s.OnlyLive handle
  | .startRunning => s.Settled
  | .startObservers | .startFilter => s.Settled ∧ s.running = true
  | .startPush handle => s.Settled ∧ s.running = true ∧ handle = s.nativeHandle
  | .stopTest | .stopRead => s.Settled
  | .stopCall handle => s.Settled ∧ handle = s.nativeHandle
  | .stopClear => s.OnlyLive 0
  | .stopDone => s.nativeHandle = 0 ∧ s.OnlyLive 0
  | .reRead => s.Settled ∧ s.running = true
  | .reStop old => (s.Settled ∧ s.running = true) ∧ old = s.nativeHandle
  | .reClear => s.OnlyLive 0 ∧ s.running = true
  | .reTunnel | .reConfig | .reNative _ =>
    (s.nativeHandle = 0 ∧ s.OnlyLive 0) ∧ s.running = true
  | .rePublish handle =>
    (s.nativeHandle = 0 ∧ s.Live handle ∧ s.OnlyLive handle) ∧ s.running = true
  | .reFilter handle | .awaitRules handle | .reFirewall handle | .awaitNetwork handle
  | .reNetwork handle | .reLogOpen handle =>
    (s.Settled ∧ s.running = true) ∧ handle = s.nativeHandle
  | _ => True

/-- Where they are otherwise. -/
structure Rest (s : Shared) : Prop where
  settled : s.Settled
  stopped : s.running = false → s.nativeHandle = 0

/-- The calls so far are linear, and no `stopEverything` completed within a `reestablishTunnel`. -/
structure Ledger (s : Shared) : Prop where
  once : s.log.Pairwise fun c c' => ∀ handle, c = .stop handle → c' ≠ .stop handle
  unused : s.log.Pairwise fun c c' => ∀ handle kind, c = .stop handle → c' ≠ .update kind handle
  complete : ∀ a still b, s.log = a ++ .stopped still :: b →
    (∀ handle ∈ starts a, handle ∈ stops a) ∧ ∀ t, still t = false
  issued : ∀ h ∈ starts s.log, 0 < h ∧ h < s.nextHandle
  stopped : ∀ h ∈ stops s.log, 0 < h ∧ h < s.nextHandle
  pos : 0 < s.nextHandle

end Shared

theorem mem_split_concat {α : Type*} {l a b : List α} {x y : α} (h : l ++ [y] = a ++ x :: b) :
    (a = l ∧ x = y ∧ b = []) ∨ ∃ b', b = b' ++ [y] ∧ l = a ++ x :: b' := by
  rcases List.eq_nil_or_concat b with rfl | ⟨b', z, rfl⟩
  · obtain ⟨rfl, hz⟩ := List.append_inj' h rfl
    exact Or.inl ⟨rfl, (List.singleton_inj.mp hz).symm, rfl⟩
  · right
    rw [List.concat_eq_append, ← List.cons_append, ← List.append_assoc] at h
    obtain ⟨hl, hz⟩ := List.append_inj' h rfl
    exact ⟨b', by rw [List.concat_eq_append, List.singleton_inj.mp hz], hl⟩

theorem stops_concat (log : List Call) (c : Call) :
    stops (log ++ [c]) = stops log ++ stops [c] := List.filterMap_append

theorem starts_concat (log : List Call) (c : Call) :
    starts (log ++ [c]) = starts log ++ starts [c] := List.filterMap_append

theorem mem_stops {log : List Call} {handle : ℕ} : handle ∈ stops log ↔ .stop handle ∈ log := by
  unfold stops
  rw [List.mem_filterMap]
  constructor
  · rintro ⟨c, hc, h⟩
    cases c <;> simp at h
    exact h ▸ hc
  · exact fun h => ⟨_, h, rfl⟩

namespace Shared

variable {s s' : Shared}

theorem Ledger.congr (h : s.Ledger) (hlog : s'.log = s.log) (hnext : s'.nextHandle = s.nextHandle) :
    s'.Ledger := by
  constructor
  · rw [hlog]; exact h.once
  · rw [hlog]; exact h.unused
  · rw [hlog]; exact h.complete
  · rw [hlog, hnext]; exact h.issued
  · rw [hlog, hnext]; exact h.stopped
  · rw [hnext]; exact h.pos

/-- Recording a call that stops or uses no stopped handle, and completes nothing too early. -/
theorem Ledger.concat (h : s.Ledger) {c : Call} (hlog : s'.log = s.log ++ [c])
    (hnext : s.nextHandle ≤ s'.nextHandle)
    (hstop : ∀ x, c = .stop x → x ∉ stops s.log ∧ 0 < x ∧ x < s'.nextHandle)
    (hupdate : ∀ kind x, c = .update kind x → x ∉ stops s.log)
    (hstart : ∀ t x, c = .start t x → 0 < x ∧ x < s'.nextHandle)
    (hdone : ∀ still, c = .stopped still →
      (∀ x ∈ starts s.log, x ∈ stops s.log) ∧ ∀ t, still t = false) : s'.Ledger := by
  constructor
  · rw [hlog, List.pairwise_append]
    refine ⟨h.once, List.pairwise_singleton _ _, ?_⟩
    intro c' hc' c'' hc'' x hx heq
    obtain rfl := List.mem_singleton.mp hc''
    exact (hstop x heq).1 (mem_stops.mpr (hx ▸ hc'))
  · rw [hlog, List.pairwise_append]
    refine ⟨h.unused, List.pairwise_singleton _ _, ?_⟩
    intro c' hc' c'' hc'' x kind hx heq
    obtain rfl := List.mem_singleton.mp hc''
    exact hupdate kind x heq (mem_stops.mpr (hx ▸ hc'))
  · intro a still b hab
    rw [hlog] at hab
    rcases mem_split_concat hab with ⟨rfl, hc, -⟩ | ⟨b', -, hb⟩
    · exact hdone still hc.symm
    · exact h.complete a still b' hb
  · intro x hx
    rw [hlog, starts_concat, List.mem_append] at hx
    rcases hx with hx | hx
    · exact ⟨(h.issued x hx).1, Nat.lt_of_lt_of_le (h.issued x hx).2 hnext⟩
    · cases c with
      | start t y =>
        obtain rfl : x = y := by simpa [starts] using hx
        exact hstart t x rfl
      | _ => simp [starts] at hx
  · intro x hx
    rw [hlog, stops_concat, List.mem_append] at hx
    rcases hx with hx | hx
    · exact ⟨(h.stopped x hx).1, Nat.lt_of_lt_of_le (h.stopped x hx).2 hnext⟩
    · cases c with
      | stop y =>
        obtain rfl : x = y := by simpa [stops] using hx
        exact (hstop x rfl).2
      | _ => simp [stops] at hx
  · exact Nat.lt_of_lt_of_le h.pos hnext

/-- The sessions, and the shared variables that say where they are, are the same. -/
structure Alike (s s' : Shared) : Prop where
  nativeHandle : s'.nativeHandle = s.nativeHandle
  running : s'.running = s.running
  starts : starts s'.log = starts s.log
  stops : stops s'.log = stops s.log

theorem Live.congr {x : ℕ} (h : s.Live x) (hstarts : starts s'.log = starts s.log)
    (hstops : stops s'.log = stops s.log) : s'.Live x := by
  unfold Live
  rw [hstarts, hstops]
  exact h

theorem OnlyLive.congr {x : ℕ} (h : s.OnlyLive x) (hstarts : starts s'.log = starts s.log)
    (hstops : stops s'.log = stops s.log) : s'.OnlyLive x := by
  unfold OnlyLive
  rw [hstarts, hstops]
  exact h

theorem Settled.congr (h : s.Settled) (ha : Alike s s') : s'.Settled := by
  constructor
  · rw [ha.nativeHandle]
    exact h.live.imp id fun hl => hl.congr ha.starts ha.stops
  · rw [ha.nativeHandle]
    exact h.only.congr ha.starts ha.stops

theorem Rest.congr (h : s.Rest) (ha : Alike s s') : s'.Rest := by
  refine ⟨h.settled.congr ha, ?_⟩
  rw [ha.running, ha.nativeHandle]
  exact h.stopped

theorem Phase.congr {pc : Pc} (h : s.Phase pc) (ha : Alike s s') : s'.Phase pc := by
  have hs : s.Settled → s'.Settled := fun h => h.congr ha
  have ho : ∀ x, s.OnlyLive x → s'.OnlyLive x := fun x h => h.congr ha.starts ha.stops
  have hl : ∀ x, s.Live x → s'.Live x := fun x h => h.congr ha.starts ha.stops
  cases pc <;> simp only [Phase, ha.nativeHandle, ha.running] at h ⊢ <;> tauto

theorem phase_of_not_critical {pc : Pc} (h : pc.critical = false) : s.Phase pc := by
  cases pc <;> trivial

end Shared

namespace Shared

variable {s : Shared}

theorem alike_nativeUpdate (s : Shared) (kind : UpdateKind) (handle : ℕ) :
    Alike s (s.nativeUpdate kind handle) := by
  constructor <;> simp [nativeUpdate, record, starts, stops]

theorem Ledger.nativeUpdate (h : s.Ledger) {handle : ℕ} (hl : handle ∉ stops s.log)
    (kind : UpdateKind) : (s.nativeUpdate kind handle).Ledger := by
  refine h.concat rfl (Nat.le_refl _) (by simp) ?_ (by simp) (by simp)
  rintro kind x ⟨⟩
  exact hl

theorem alike_nativeUpdateConfig (s : Shared) (handle : ℕ) (config : NativeConfig) :
    Alike s (s.nativeUpdateConfig handle config) := by
  constructor <;> simp [nativeUpdateConfig, Shared.nativeUpdate, record, starts, stops]

theorem alike_unlock (s : Shared) (t : TaskId) : Alike s (s.unlock t) := by
  unfold unlock
  split_ifs <;> exact ⟨rfl, rfl, rfl, rfl⟩

theorem Ledger.unlock (h : s.Ledger) (t : TaskId) : (s.unlock t).Ledger := by
  unfold Shared.unlock
  split_ifs
  · exact h.congr rfl rfl
  · exact h

theorem alike_returned (s : Shared) (t : TaskId) : Alike s (s.record (.returned t)) := by
  constructor <;> simp [record, starts, stops]

theorem Ledger.returned (h : s.Ledger) (t : TaskId) : (s.record (.returned t)).Ledger :=
  h.concat rfl (Nat.le_refl _) (by simp) (by simp) (by simp) (by simp)

theorem alike_stopped (s : Shared) (still : TaskId → Bool) :
    Alike s (s.record (.stopped still)) := by
  constructor <;> simp [record, starts, stops]

theorem Ledger.stopped_none (h : s.Ledger) (ho : s.OnlyLive 0) {still : TaskId → Bool}
    (hstill : ∀ t, still t = false) : (s.record (.stopped still)).Ledger := by
  refine h.concat rfl (Nat.le_refl _) (by simp) (by simp) (by simp) ?_
  rintro still ⟨⟩
  refine ⟨?_, hstill⟩
  intro x hx
  exact ho x hx (Nat.ne_of_gt (h.issued x hx).1)

theorem alike_trans {s' s'' : Shared} (h : Alike s s') (h' : Alike s' s'') : Alike s s'' :=
  ⟨h'.nativeHandle.trans h.nativeHandle, h'.running.trans h.running, h'.starts.trans h.starts,
    h'.stops.trans h.stops⟩

theorem nativeStop_running (s : Shared) (x : ℕ) : (s.nativeStop x).running = s.running := by
  unfold nativeStop
  split_ifs <;> rfl

theorem starts_nativeStop (s : Shared) (x : ℕ) :
    starts (s.nativeStop x).log = starts s.log := by
  unfold nativeStop record
  split_ifs
  · rfl
  · simp [starts]

theorem mem_stops_nativeStop {x y : ℕ} :
    y ∈ stops (s.nativeStop x).log ↔ y ∈ stops s.log ∨ (x ≠ 0 ∧ y = x) := by
  unfold nativeStop record
  split_ifs with hx
  · simp [hx]
  · rw [stops_concat, List.mem_append]
    simp [stops, hx]

theorem Live.nativeStop {x y : ℕ} (h : s.Live x) (hne : x ≠ y) : (s.nativeStop y).Live x := by
  refine ⟨by rw [starts_nativeStop]; exact h.1, ?_⟩
  rw [mem_stops_nativeStop]
  rintro (hx | ⟨-, rfl⟩)
  · exact h.2 hx
  · exact hne rfl

/-- Stopping the session of the handle leaves none. -/
theorem Settled.nativeStop (h : s.Settled) : (s.nativeStop s.nativeHandle).OnlyLive 0 := by
  intro x hx hne
  rw [starts_nativeStop] at hx
  rw [mem_stops_nativeStop]
  by_cases hxh : x = s.nativeHandle
  · exact Or.inr ⟨hxh ▸ hne, hxh⟩
  · exact Or.inl (h.only x hx hxh)

theorem Ledger.nativeStop (h : s.Ledger) (hs : s.Settled) :
    (s.nativeStop s.nativeHandle).Ledger := by
  unfold Shared.nativeStop
  split_ifs with h0
  · exact h
  · have hl := hs.live.resolve_left h0
    refine h.concat rfl (Nat.le_refl _) ?_ (by simp) (by simp) (by simp)
    rintro x ⟨⟩
    exact ⟨hl.2, h.issued _ hl.1⟩

theorem starts_nativeStart (s : Shared) (t : TaskId) (config : NativeConfig) :
    starts (s.nativeStart t config).log = starts s.log ++ [s.nextHandle] := by
  simp [nativeStart, starts]

theorem stops_nativeStart (s : Shared) (t : TaskId) (config : NativeConfig) :
    stops (s.nativeStart t config).log = stops s.log := by
  simp [nativeStart, stops]

theorem Live.nativeStart {x : ℕ} (h : s.Live x) (t : TaskId) (config : NativeConfig) :
    (s.nativeStart t config).Live x := by
  refine ⟨?_, by rw [stops_nativeStart]; exact h.2⟩
  rw [starts_nativeStart]
  exact List.mem_append_left _ h.1

/-- A session started while there is none is the only one. -/
theorem Ledger.live_nativeStart (h : s.Ledger) (ho : s.OnlyLive 0) (t : TaskId)
    (config : NativeConfig) : (s.nativeStart t config).Live s.nextHandle ∧
      (s.nativeStart t config).OnlyLive s.nextHandle := by
  refine ⟨⟨?_, ?_⟩, ?_⟩
  · rw [starts_nativeStart]
    simp
  · rw [stops_nativeStart]
    intro hx
    exact Nat.lt_irrefl _ (h.stopped _ hx).2
  · intro x hx hne
    rw [starts_nativeStart, List.mem_append, List.mem_singleton] at hx
    rw [stops_nativeStart]
    rcases hx with hx | hx
    · exact ho x hx (Nat.ne_of_gt (h.issued x hx).1)
    · exact absurd hx hne

theorem Ledger.nativeStart (h : s.Ledger) (t : TaskId) (config : NativeConfig) :
    (s.nativeStart t config).Ledger := by
  refine h.concat (c := .start t s.nextHandle) rfl (Nat.le_succ _) (by simp) (by simp) ?_ (by simp)
  rintro t x ⟨⟩
  exact ⟨h.pos, Nat.lt_succ_self _⟩

/-- A published session is the one the handle stands for. -/
theorem settled_publish {x : ℕ} (hl : s.Live x) (ho : s.OnlyLive x) :
    Settled { s with nativeHandle := x } := ⟨Or.inr hl, ho⟩

theorem settled_of_none (h : s.nativeHandle = 0) (ho : s.OnlyLive 0) : s.Settled :=
  ⟨Or.inl h, h ▸ ho⟩

theorem Settled.not_stopped (h : s.Settled) (hl : s.Ledger) : s.nativeHandle ∉ stops s.log := by
  rcases h.live with h | h
  · rw [h]
    exact fun h0 => Nat.lt_irrefl _ (hl.stopped 0 h0).1
  · exact h.2

end Shared

structure Inv (s : Service) : Prop where
  alone : ∀ t t', (s.tasks t).critical = true → (s.tasks t').critical = true → t = t'
  phase : ∀ t, s.shared.Phase (s.tasks t)
  rest : s.Quiet → s.shared.Rest
  held : ∀ t handle, (s.tasks t).holds = some handle → s.shared.Live handle
  ledger : s.shared.Ledger

namespace Inv

variable {s : Service} {t : TaskId} {r : Shared × Pc}

theorem tasks_self : (s.setTask t r).tasks t = r.2 := Function.update_self ..

theorem tasks_of_ne {t' : TaskId} (h : t' ≠ t) : (s.setTask t r).tasks t' = s.tasks t' :=
  Function.update_of_ne h ..

/-- A step of a task outside operations on the session, that leaves the sessions alone. -/
theorem aside (h : Inv s) (hc : r.2.critical = false) (ha : Shared.Alike s.shared r.1)
    (hheld : ∀ x, r.2.holds = some x → s.shared.Live x) (hledger : r.1.Ledger)
    (hold : (s.tasks t).critical = false) : Inv (s.setTask t r) := by
  have hcrit : ∀ t', ((s.setTask t r).tasks t').critical = (s.tasks t').critical := by
    intro t'
    by_cases ht : t' = t
    · rw [ht, tasks_self, hc, hold]
    · rw [tasks_of_ne ht]
  constructor
  · intro t₁ t₂ h₁ h₂
    rw [hcrit] at h₁ h₂
    exact h.alone t₁ t₂ h₁ h₂
  · intro t'
    by_cases ht : t' = t
    · rw [ht, tasks_self]
      exact Shared.phase_of_not_critical hc
    · rw [tasks_of_ne ht]
      exact (h.phase t').congr ha
  · intro hq
    exact (h.rest fun t' => (hcrit t').symm.trans (hq t')).congr ha
  · intro t' x hx
    by_cases ht : t' = t
    · rw [ht, tasks_self] at hx
      exact (hheld x hx).congr ha.starts ha.stops
    · rw [tasks_of_ne ht] at hx
      exact (h.held t' x hx).congr ha.starts ha.stops
  · exact hledger

/-- A step of an operation on the session: no other is under way. -/
theorem inside (hothers : ∀ t', t' ≠ t → (s.tasks t').critical = false)
    (hphase : r.1.Phase r.2) (hholds : r.2.holds = none)
    (hlive : ∀ t' x, (s.tasks t').holds = some x → r.1.Live x) (hledger : r.1.Ledger)
    (hrest : r.2.critical = false → r.1.Rest) : Inv (s.setTask t r) := by
  have hout : ∀ t', ((s.setTask t r).tasks t').critical = true → t' = t := by
    intro t' ht'
    by_contra hne
    rw [tasks_of_ne hne, hothers t' hne] at ht'
    contradiction
  constructor
  · intro t₁ t₂ h₁ h₂
    rw [hout t₁ h₁, hout t₂ h₂]
  · intro t'
    by_cases ht : t' = t
    · rw [ht, tasks_self]
      exact hphase
    · rw [tasks_of_ne ht]
      exact Shared.phase_of_not_critical (hothers t' ht)
  · intro hq
    have := hq t
    rw [tasks_self] at this
    exact hrest this
  · intro t' x hx
    by_cases ht : t' = t
    · rw [ht, tasks_self, hholds] at hx
      contradiction
    · rw [tasks_of_ne ht] at hx
      exact hlive t' x hx
  · exact hledger

variable {platform : Platform} {ok : Bool}

theorem others (h : Inv s) (hc : (s.tasks t).critical = true) :
    ∀ t', t' ≠ t → (s.tasks t').critical = false := by
  intro t' hne
  by_contra hc'
  rw [Bool.not_eq_false] at hc'
  exact hne (h.alone t' t hc' hc)

/-- A step of an operation that changes neither sessions nor handle. -/
theorem inside_alike (h : Inv s) (hc : (s.tasks t).critical = true)
    (ha : Shared.Alike s.shared r.1) (hphase : r.1.Phase r.2) (hholds : r.2.holds = none)
    (hledger : r.1.Ledger) (hrest : r.2.critical = false → r.1.Rest) : Inv (s.setTask t r) :=
  inside (h.others hc) hphase hholds
    (fun t' x hx => (h.held t' x hx).congr ha.starts ha.stops) hledger hrest

theorem start_step (h : Inv s) {pc : Pc} (hpc : s.tasks t = pc) (hin : pc.starting = true)
    (hs : s.shared.advance platform s.reestablishing t ok pc = some r) :
    Inv (s.setTask t r) := by
  have hp := h.phase t
  rw [hpc] at hp
  have hl := h.ledger
  have hc : (s.tasks t).critical = true := by rw [hpc, Pc.critical, hin]; rfl
  cases pc with
  | startTunnel =>
    obtain rfl := Option.some.inj hs
    refine h.inside_alike hc ⟨rfl, rfl, rfl, rfl⟩ ?_ ?_ hl ?_
    · cases ok
      · trivial
      · exact hp
    · cases ok <;> rfl
    · intro _
      exact ⟨Shared.settled_of_none hp.1 hp.2, fun _ => hp.1⟩
  | startConfig =>
    obtain rfl := Option.some.inj hs
    exact h.inside_alike hc ⟨rfl, rfl, rfl, rfl⟩ hp rfl hl nofun
  | startNative config =>
    obtain rfl := Option.some.inj hs
    cases ok with
    | false =>
      refine h.inside_alike hc ⟨rfl, rfl, rfl, rfl⟩ trivial rfl hl ?_
      intro _
      exact ⟨Shared.settled_of_none hp.1 hp.2, fun _ => hp.1⟩
    | true =>
      refine inside (h.others hc) ⟨hp.1, hl.live_nativeStart hp.2 t config⟩ rfl ?_
        (hl.nativeStart t config) nofun
      intro t' x hx
      exact (h.held t' x hx).nativeStart t config
  | startPublish handle =>
    obtain rfl := Option.some.inj hs
    exact inside (h.others hc) (Shared.settled_publish hp.2.1 hp.2.2) rfl h.held (hl.congr rfl rfl)
      nofun
  | startRunning =>
    obtain rfl := Option.some.inj hs
    exact inside (h.others hc) ⟨⟨hp.live, hp.only⟩, rfl⟩ rfl h.held (hl.congr rfl rfl) nofun
  | startObservers =>
    obtain rfl := Option.some.inj hs
    refine inside (h.others hc) ⟨⟨hp.1.live, hp.1.only⟩, hp.2⟩ rfl h.held (hl.congr rfl rfl) nofun
  | startFilter =>
    obtain rfl := Option.some.inj hs
    refine h.inside_alike hc ⟨rfl, rfl, rfl, rfl⟩ ?_ ?_ hl ?_
    · cases ok
      · trivial
      · exact ⟨hp.1, hp.2, rfl⟩
    · cases ok <;> rfl
    · intro _
      exact ⟨hp.1, by simp [hp.2]⟩
  | startPush handle =>
    obtain rfl := Option.some.inj hs
    obtain ⟨hset, hrun, rfl⟩ := hp
    have ha := Shared.alike_nativeUpdate s.shared .filter s.shared.nativeHandle
    refine h.inside_alike hc ha trivial rfl (hl.nativeUpdate (hset.not_stopped hl) _) ?_
    intro _
    exact Shared.Rest.congr ⟨hset, by simp [hrun]⟩ ha
  | _ => exact absurd hin Bool.false_ne_true

theorem stop_step (h : Inv s) {pc : Pc} (hpc : s.tasks t = pc) (hin : pc.stopping = true)
    (hex : ∀ x, pc = .stopCall x → ∀ t', (s.tasks t').holds ≠ some x)
    (hs : s.shared.advance platform s.reestablishing t ok pc = some r) :
    Inv (s.setTask t r) := by
  have hp := h.phase t
  rw [hpc] at hp
  have hl := h.ledger
  have hc : (s.tasks t).critical = true := by rw [hpc, Pc.critical, hin, Bool.or_true]; rfl
  cases pc with
  | stopTest =>
    obtain rfl := Option.some.inj hs
    by_cases h0 : s.shared.nativeHandle = 0
    · rw [if_pos h0]
      exact h.inside_alike hc ⟨rfl, rfl, rfl, rfl⟩ ⟨h0, h0 ▸ hp.only⟩ rfl hl nofun
    · rw [if_neg h0]
      exact h.inside_alike hc ⟨rfl, rfl, rfl, rfl⟩ hp rfl hl nofun
  | stopRead =>
    obtain rfl := Option.some.inj hs
    exact h.inside_alike hc ⟨rfl, rfl, rfl, rfl⟩ ⟨hp, rfl⟩ rfl hl nofun
  | stopCall handle =>
    obtain rfl := Option.some.inj hs
    obtain ⟨hset, rfl⟩ := hp
    refine inside (h.others hc) hset.nativeStop rfl ?_ (hl.nativeStop hset) nofun
    intro t' x hx
    refine (h.held t' x hx).nativeStop ?_
    rintro rfl
    exact hex _ rfl t' hx
  | stopClear =>
    obtain rfl := Option.some.inj hs
    exact inside (h.others hc) ⟨rfl, hp⟩ rfl h.held (hl.congr rfl rfl) nofun
  | stopDone =>
    obtain rfl := Option.some.inj hs
    have hstill : ∀ t', s.reestablishing t' = false := by
      intro t'
      by_cases ht : t' = t
      · rw [Service.reestablishing, ht, hpc]
        rfl
      · have := h.others hc t' ht
        rw [Pc.critical, Bool.or_eq_false_iff] at this
        exact this.2
    have ha := Shared.alike_trans (Shared.alike_stopped s.shared s.reestablishing)
      (Shared.alike_unlock _ t)
    refine h.inside_alike hc ha trivial rfl ((hl.stopped_none hp.2 hstill).unlock t) ?_
    intro _
    exact Shared.Rest.congr ⟨Shared.settled_of_none hp.1 hp.2, fun _ => hp.1⟩ ha
  | _ => exact absurd hin Bool.false_ne_true

/-- A `nativeUpdate*` call within `reestablishTunnel`, on the session it has just published. -/
theorem reapply_step (h : Inv s) {handle : ℕ} {pc' : Pc} (kind : UpdateKind)
    (hc : (s.tasks t).critical = true)
    (hp : (s.shared.Settled ∧ s.shared.running = true) ∧ handle = s.shared.nativeHandle)
    (hphase : ∀ sh : Shared, (sh.Settled ∧ sh.running = true) ∧ handle = sh.nativeHandle →
      sh.Phase pc')
    (hholds : pc'.holds = none) (hcrit : pc'.critical = true) :
    Inv (s.setTask t (s.shared.nativeUpdate kind handle, pc')) := by
  obtain ⟨⟨hset, hrun⟩, rfl⟩ := hp
  have ha := Shared.alike_nativeUpdate s.shared kind s.shared.nativeHandle
  refine h.inside_alike hc ha ?_ hholds (h.ledger.nativeUpdate (hset.not_stopped h.ledger) _) ?_
  · exact hphase _ ⟨⟨hset.congr ha, hrun⟩, rfl⟩
  · intro hf
    exact absurd (hf.symm.trans hcrit) Bool.false_ne_true

theorem reestablish_step (h : Inv s) {pc : Pc} (hpc : s.tasks t = pc)
    (hin : pc.reestablishing = true)
    (hex : ∀ x, pc = .reStop x → ∀ t', (s.tasks t').holds ≠ some x)
    (hs : s.shared.advance platform s.reestablishing t ok pc = some r) :
    Inv (s.setTask t r) := by
  have hp := h.phase t
  rw [hpc] at hp
  have hl := h.ledger
  have hc : (s.tasks t).critical = true := by rw [hpc, Pc.critical, hin, Bool.or_true]
  cases pc with
  | reRead =>
    obtain rfl := Option.some.inj hs
    exact h.inside_alike hc ⟨rfl, rfl, rfl, rfl⟩ ⟨hp, rfl⟩ rfl hl nofun
  | reStop old =>
    obtain rfl := Option.some.inj hs
    obtain ⟨⟨hset, hrun⟩, rfl⟩ := hp
    refine inside (h.others hc) ⟨hset.nativeStop, ?_⟩ rfl ?_ (hl.nativeStop hset) nofun
    · rw [Shared.nativeStop_running, hrun]
    · intro t' x hx
      refine (h.held t' x hx).nativeStop ?_
      rintro rfl
      exact hex _ rfl t' hx
  | reClear =>
    obtain rfl := Option.some.inj hs
    exact inside (h.others hc) ⟨⟨rfl, hp.1⟩, hp.2⟩ rfl h.held (hl.congr rfl rfl) nofun
  | reTunnel =>
    obtain rfl := Option.some.inj hs
    refine h.inside_alike hc ⟨rfl, rfl, rfl, rfl⟩ ?_ ?_ hl ?_
    · cases ok
      · trivial
      · exact hp
    · cases ok <;> rfl
    · intro _
      exact ⟨Shared.settled_of_none hp.1.1 hp.1.2, fun _ => hp.1.1⟩
  | reConfig =>
    obtain rfl := Option.some.inj hs
    exact h.inside_alike hc ⟨rfl, rfl, rfl, rfl⟩ hp rfl hl nofun
  | reNative config =>
    obtain rfl := Option.some.inj hs
    cases ok with
    | false =>
      refine h.inside_alike hc ⟨rfl, rfl, rfl, rfl⟩ trivial rfl hl ?_
      intro _
      exact ⟨Shared.settled_of_none hp.1.1 hp.1.2, fun _ => hp.1.1⟩
    | true =>
      refine inside (h.others hc) ⟨⟨hp.1.1, hl.live_nativeStart hp.1.2 t config⟩, hp.2⟩ rfl ?_
        (hl.nativeStart t config) nofun
      intro t' x hx
      exact (h.held t' x hx).nativeStart t config
  | rePublish handle =>
    obtain rfl := Option.some.inj hs
    exact inside (h.others hc) ⟨⟨Shared.settled_publish hp.1.2.1 hp.1.2.2, hp.2⟩, rfl⟩ rfl h.held
      (hl.congr rfl rfl) nofun
  | reFilter handle =>
    obtain rfl := Option.some.inj hs
    cases ok with
    | false => exact h.inside_alike hc ⟨rfl, rfl, rfl, rfl⟩ hp rfl hl nofun
    | true => exact h.reapply_step .filter hc hp (fun _ h => h) rfl rfl
  | awaitRules handle =>
    obtain rfl := Option.some.inj hs
    exact h.inside_alike hc ⟨rfl, rfl, rfl, rfl⟩ hp rfl hl nofun
  | reFirewall handle =>
    obtain rfl := Option.some.inj hs
    exact h.reapply_step .firewall hc hp (fun _ h => h) rfl rfl
  | awaitNetwork handle =>
    obtain rfl := Option.some.inj hs
    exact h.inside_alike hc ⟨rfl, rfl, rfl, rfl⟩ hp rfl hl nofun
  | reNetwork handle =>
    obtain rfl := Option.some.inj hs
    exact h.reapply_step .network hc hp (fun _ h => h) rfl rfl
  | reLogOpen handle =>
    obtain rfl := Option.some.inj hs
    obtain ⟨⟨hset, hrun⟩, rfl⟩ := hp
    have ha := Shared.alike_trans (Shared.alike_trans
      (Shared.alike_nativeUpdate s.shared .logOpen s.shared.nativeHandle)
      (Shared.alike_returned _ t)) (Shared.alike_unlock _ t)
    refine h.inside_alike hc ha trivial rfl ?_ ?_
    · exact ((hl.nativeUpdate (hset.not_stopped hl) _).returned t).unlock t
    · intro _
      exact Shared.Rest.congr ⟨hset, by simp [hrun]⟩ ha
  | _ => exact absurd hin Bool.false_ne_true

/-- The first step of an operation on the session. -/
theorem enter (h : Inv s) (hq : s.Quiet) {pc' : Pc} {sh : Shared} (hlog : sh.log = s.shared.log)
    (hnext : sh.nextHandle = s.shared.nextHandle) (hphase : sh.Phase pc')
    (hcrit : pc'.critical = true) (hholds : pc'.holds = none) : Inv (s.setTask t (sh, pc')) := by
  refine inside (fun t' _ => hq t') hphase hholds ?_ (h.ledger.congr hlog hnext) ?_
  · intro t' x hx
    exact (h.held t' x hx).congr (by rw [hlog]) (by rw [hlog])
  · intro hf
    exact absurd (hf.symm.trans hcrit) Bool.false_ne_true

theorem outside_step (h : Inv s) {pc : Pc} (hpc : s.tasks t = pc) (hout : pc.critical = false)
    (hex : Exclusive s (.run t ok))
    (hs : s.shared.advance platform s.reestablishing t ok pc = some r) :
    Inv (s.setTask t r) := by
  have hheld := h.held t
  unfold Exclusive at hex
  rw [hpc] at hheld
  simp only [hpc] at hex
  have hl := h.ledger
  have hc : (s.tasks t).critical = false := by rw [hpc, hout]
  cases pc with
  | idle => contradiction
  | stopMark =>
    obtain rfl := Option.some.inj hs
    have hr := (h.rest hex).settled
    exact h.enter hex rfl rfl ⟨hr.live, hr.only⟩ rfl rfl
  | awaitLock checked =>
    by_cases hfree : s.shared.v6Mutex = none
    · simp only [Shared.advance, if_pos hfree] at hs
      obtain rfl := Option.some.inj hs
      cases checked with
      | true =>
        have hr := (h.rest hex.2).settled
        exact h.enter hex.2 rfl rfl ⟨⟨hr.live, hr.only⟩, hex.1⟩ rfl rfl
      | false => exact h.aside rfl ⟨rfl, rfl, rfl, rfl⟩ nofun (hl.congr rfl rfl) hc
    · simp only [Shared.advance, if_neg hfree] at hs
      contradiction
  | checkRunning =>
    obtain rfl := Option.some.inj hs
    by_cases hgo : (s.shared.running && ok) = true
    · rw [if_pos hgo]
      rw [Bool.and_eq_true] at hgo
      have hq := hex hgo.1 hgo.2
      exact h.enter hq rfl rfl ⟨(h.rest hq).settled, hgo.1⟩ rfl rfl
    · rw [if_neg hgo]
      exact h.aside rfl (Shared.alike_unlock _ t) nofun (hl.unlock t) hc
  | resolve handle config =>
    obtain rfl := Option.some.inj hs
    exact h.aside rfl ⟨rfl, rfl, rfl, rfl⟩ hheld hl hc
  | pushConfig handle config =>
    obtain rfl := Option.some.inj hs
    exact h.aside rfl (Shared.alike_nativeUpdateConfig _ _ _) nofun
      ((hl.nativeUpdate (hheld handle rfl).2 .config).congr rfl rfl) hc
  | push kind handle =>
    obtain rfl := Option.some.inj hs
    exact h.aside rfl (Shared.alike_nativeUpdate _ _ _) nofun
      (hl.nativeUpdate (hheld handle rfl).2 kind) hc
  | _ => exact absurd hout.symm Bool.false_ne_true

theorem run_step (h : Inv s) (hex : Exclusive s (.run t ok))
    (hs : s.shared.advance platform s.reestablishing t ok (s.tasks t) = some r) :
    Inv (s.setTask t r) := by
  cases hout : (s.tasks t).critical with
  | false => exact h.outside_step rfl hout hex hs
  | true =>
    rw [Pc.critical, Bool.or_eq_true, Bool.or_eq_true] at hout
    rcases hout with (hin | hin) | hin
    · exact h.start_step rfl hin hs
    · refine h.stop_step rfl hin ?_ hs
      intro x hx
      simpa only [Exclusive, hx] using hex
    · refine h.reestablish_step rfl hin ?_ hs
      intro x hx
      simpa only [Exclusive, hx] using hex

theorem abort_step (h : Inv s) (hs : s.shared.abort t (s.tasks t) = some r) :
    Inv (s.setTask t r) := by
  have hp := h.phase t
  have hl := h.ledger
  have hreturn := Shared.alike_trans (Shared.alike_returned s.shared t) (Shared.alike_unlock _ t)
  unfold Shared.abort at hs
  split_ifs at hs
  cases hpc : s.tasks t <;> rw [hpc] at hs hp <;>
    first | contradiction | obtain rfl := Option.some.inj hs
  · exact h.aside rfl ⟨rfl, rfl, rfl, rfl⟩ nofun hl (by rw [hpc]; rfl)
  · refine h.inside_alike (by rw [hpc]; rfl) hreturn trivial rfl ((hl.returned t).unlock t) ?_
    intro _
    exact Shared.Rest.congr ⟨hp.1.1, by simp [hp.1.2]⟩ hreturn
  · refine h.inside_alike (by rw [hpc]; rfl) hreturn trivial rfl ((hl.returned t).unlock t) ?_
    intro _
    exact Shared.Rest.congr ⟨hp.1.1, by simp [hp.1.2]⟩ hreturn
  · exact h.aside rfl ⟨rfl, rfl, rfl, rfl⟩ nofun hl (by rw [hpc]; rfl)

/-- A handle that is read while no task is about to clear it is that of the live session. -/
theorem live_handle (h : Inv s) (hclear : ∀ t, s.tasks t ≠ .stopClear ∧ s.tasks t ≠ .reClear)
    (h0 : s.shared.nativeHandle ≠ 0) : s.shared.Live s.shared.nativeHandle := by
  by_cases hq : s.Quiet
  · exact (h.rest hq).settled.live.resolve_left h0
  · obtain ⟨t, ht⟩ := not_forall.mp hq
    have hp := h.phase t
    have hc := hclear t
    have hset : s.shared.Settled → s.shared.Live s.shared.nativeHandle :=
      fun h => h.live.resolve_left h0
    cases hpc : s.tasks t <;> rw [hpc] at hp hc ht <;> simp only [Shared.Phase] at hp <;>
      first | (exact absurd rfl ht) | tauto

/-- A collector other than that of the configuration takes an emission. -/
theorem emit_push (h : Inv s) {kind : UpdateKind}
    (hlive : s.shared.nativeHandle ≠ 0 → s.shared.Live s.shared.nativeHandle)
    (hc : (s.tasks t).critical = false)
    (hs : some (s.shared, if s.shared.nativeHandle = 0 then Pc.idle
      else .push kind s.shared.nativeHandle) = some r) : Inv (s.setTask t r) := by
  obtain rfl := Option.some.inj hs
  by_cases h0 : s.shared.nativeHandle = 0
  · rw [if_pos h0]
    exact h.aside rfl ⟨rfl, rfl, rfl, rfl⟩ nofun h.ledger hc
  · rw [if_neg h0]
    refine h.aside rfl ⟨rfl, rfl, rfl, rfl⟩ ?_ h.ledger hc
    rintro x ⟨⟩
    exact hlive h0

theorem emit_step (h : Inv s) {scope : ℕ} {observer : Observer}
    (hex : Exclusive s (.emit scope observer)) (hidle : s.tasks t = .idle)
    (hs : s.shared.emit scope observer = some r) : Inv (s.setTask t r) := by
  have hl := h.ledger
  have hc : (s.tasks t).critical = false := by rw [hidle]; rfl
  have hlive : observer ≠ .proxy → s.shared.nativeHandle ≠ 0 →
      s.shared.Live s.shared.nativeHandle := by
    intro hobs h0
    exact h.live_handle (hex hobs) h0
  cases observer with
  | proxy =>
    obtain rfl := Option.some.inj hs
    refine h.aside ?_ ⟨rfl, rfl, rfl, rfl⟩ ?_ hl hc
    · cases s.shared.running <;> rfl
    · cases s.shared.running <;> nofun
  | config =>
    simp only [Shared.emit] at hs
    split_ifs at hs with hlast h0
    · obtain rfl := Option.some.inj hs
      exact h.aside rfl ⟨rfl, rfl, rfl, rfl⟩ nofun (hl.congr rfl rfl) hc
    · obtain rfl := Option.some.inj hs
      refine h.aside rfl ⟨rfl, rfl, rfl, rfl⟩ ?_ (hl.congr rfl rfl) hc
      rintro x ⟨⟩
      exact hlive nofun h0
  | filter => exact h.emit_push (hlive nofun) hc hs
  | firewall => exact h.emit_push (hlive nofun) hc hs
  | network => exact h.emit_push (hlive nofun) hc hs
  | logOpen => exact h.emit_push (hlive nofun) hc hs

theorem step (h : Inv s) {e : Event} {s' : Service} (hex : Exclusive s e)
    (hs : s.step platform e = some s') : Inv s' := by
  cases e with
  | start =>
    simp only [Service.step] at hs
    split_ifs at hs with hidle hrun
    · obtain rfl := Option.some.inj hs
      exact h.aside rfl ⟨rfl, rfl, rfl, rfl⟩ nofun h.ledger (by rw [hidle]; rfl)
    · obtain rfl := Option.some.inj hs
      rw [Bool.not_eq_true] at hrun
      have hr := h.rest (hex hrun)
      have h0 := hr.stopped hrun
      exact h.enter (hex hrun) rfl rfl ⟨h0, h0 ▸ hr.settled.only⟩ rfl rfl
  | stop =>
    simp only [Service.step] at hs
    split_ifs at hs with hidle
    obtain rfl := Option.some.inj hs
    exact h.aside rfl ⟨rfl, rfl, rfl, rfl⟩ nofun h.ledger (by rw [hidle]; rfl)
  | network n =>
    simp only [Service.step] at hs
    cases hscope : s.shared.serviceScope with
    | none =>
      rw [hscope] at hs
      contradiction
    | some scope =>
      rw [hscope] at hs
      simp only at hs
      split_ifs at hs with hidle
      obtain rfl := Option.some.inj hs
      exact h.aside rfl ⟨rfl, rfl, rfl, rfl⟩ nofun h.ledger (by rw [hidle.2]; rfl)
  | edit settings =>
    obtain rfl := Option.some.inj hs
    refine ⟨h.alone, fun t => (h.phase t).congr ⟨rfl, rfl, rfl, rfl⟩, fun hq => ?_, h.held,
      h.ledger.congr rfl rfl⟩
    exact (h.rest hq).congr ⟨rfl, rfl, rfl, rfl⟩
  | emit scope observer =>
    simp only [Service.step] at hs
    split_ifs at hs with hidle
    obtain ⟨r, hr, rfl⟩ := Option.map_eq_some_iff.mp hs
    exact h.emit_step hex hidle.2.2 hr
  | run t ok =>
    obtain ⟨r, hr, rfl⟩ := Option.map_eq_some_iff.mp hs
    exact h.run_step hex hr
  | abort t =>
    obtain ⟨r, hr, rfl⟩ := Option.map_eq_some_iff.mp hs
    exact h.abort_step hr

theorem created (platform : Platform) (settings : LiveConfig) :
    Inv (Service.created platform settings) := by
  refine ⟨nofun, fun _ => trivial, fun _ => ?_, nofun, ?_⟩
  · exact ⟨⟨Or.inl rfl, nofun⟩, fun _ => rfl⟩
  · exact ⟨List.Pairwise.nil, List.Pairwise.nil, by simp [Service.created], nofun, nofun,
      Nat.one_pos⟩

theorem linear (h : Inv s) : Linear s.shared.log := by
  have hl := h.ledger
  refine ⟨hl.once, hl.unused, fun a still b hab => (hl.complete a still b hab).1, ?_⟩
  intro a still b hab t ht
  rw [(hl.complete a still b hab).2 t] at ht
  contradiction

end Inv

/-- A run whose operations on the session exclude each other uses every handle linearly. -/
theorem exclusive_linear (platform : Platform) (settings : LiveConfig) {es : List Event}
    {s : Service} (hs : (service platform settings).run es = some s)
    (hex : (service platform settings).EachStep Exclusive
      (service platform settings).init es) :
    Linear s.shared.log :=
  (Automaton.EachStep.runFrom (fun _ _ _ h hex hs => Inv.step h hex hs) hex
    (Inv.created platform settings) hs).linear

/-- A platform that resolves no name. -/
def offline : Platform := ⟨fun _ => none, fun _ => none, fun _ => none, fun _ => -1⟩

def defaultSettings : LiveConfig :=
  ⟨.off, false, false, false, ⟨.plain, [], 53, [], 853, []⟩⟩

/-- `startCapture` without a compiled engine. -/
def startup : List Event :=
  [.start, .run .main true, .run .main true, .run .main true, .run .main true, .run .main true,
    .run .main true, .run .main false]

/-- `stopEverything` on a session. -/
def shutdown : List Event :=
  [.stop, .run .main true, .run .main true, .run .main true, .run .main true, .run .main true,
    .run .main true]

/-- The config collector pushes the settings to the session. -/
def configPush : List Event :=
  [.emit 0 .config, .run (.collector 0 .config) true, .run (.collector 0 .config) true]

/-- The proxy collector re-establishes the tunnel; the network collector finds the new session
before the old rules are pushed to it. -/
def proxyChange : List Event :=
  .emit 0 .proxy :: List.replicate 9 (.run (.collector 0 .proxy) true) ++
    [.emit 0 .network, .run (.collector 0 .network) true] ++
    List.replicate 5 (.run (.collector 0 .proxy) true)

/-- The tasks of a service that has launched its collectors once. -/
theorem TaskId.forall_first {P : TaskId → Prop} (main : P .main)
    (first : ∀ observer, P (.collector 0 observer))
    (later : ∀ n observer, P (.collector (n + 1) observer))
    (reconcile : ∀ scope n, P (.reconcile scope n)) : ∀ t, P t := by
  intro t
  rcases t with _ | ⟨_ | n, observer⟩ | ⟨scope, n⟩
  · exact main
  · exact first observer
  · exact later n observer
  · exact reconcile scope n

theorem exclusive_linear_proxyChange :
    ∃ s, (service offline defaultSettings).run (startup ++ configPush ++ proxyChange ++ shutdown) =
        some s ∧
      starts s.shared.log = [1, 2] ∧ stops s.shared.log = [1, 2] ∧ Linear s.shared.log := by
  refine ⟨_, rfl, rfl, rfl, @exclusive_linear offline defaultSettings
    (startup ++ configPush ++ proxyChange ++ shutdown) _ rfl ?_⟩
  refine ⟨fun _ t => rfl, trivial, trivial, trivial, trivial, trivial, trivial, trivial,
    fun _ => ?_, trivial, trivial, absurd rfl, ⟨rfl, ?_⟩, trivial, ?_, trivial, trivial, trivial,
    trivial, trivial, trivial, fun _ => ?_, trivial, trivial, trivial, trivial, trivial,
    trivial, trivial, ?_, trivial, trivial, ?_, trivial, trivial, trivial⟩
  · exact TaskId.forall_first ⟨nofun, nofun⟩ (fun observer => ⟨nofun, nofun⟩)
      (fun _ _ => ⟨nofun, nofun⟩) fun _ _ => ⟨nofun, nofun⟩
  · exact TaskId.forall_first rfl (fun observer => by cases observer <;> rfl) (fun _ _ => rfl)
      fun _ _ => rfl
  · exact TaskId.forall_first nofun (fun observer => by cases observer <;> nofun) (fun _ _ => nofun)
      fun _ _ => nofun
  · exact TaskId.forall_first ⟨nofun, nofun⟩
      (fun observer => by cases observer <;> exact ⟨nofun, nofun⟩)
      (fun _ _ => ⟨nofun, nofun⟩) fun _ _ => ⟨nofun, nofun⟩
  · exact TaskId.forall_first rfl (fun observer => by cases observer <;> rfl) (fun _ _ => rfl)
      fun _ _ => rfl
  · exact TaskId.forall_first nofun (fun observer => by cases observer <;> nofun) (fun _ _ => nofun)
      fun _ _ => nofun

/-- The proxy collector has read the handle to stop its session when the main thread stops it:
`nativeStop` is called twice on one session. -/
theorem handle_stopped_twice :
    ¬ ∀ (platform : Platform) (settings : LiveConfig) (es : List Event) (s : Service),
      (service platform settings).run es = some s → Linear s.shared.log := by
  intro h
  have hl := (h offline defaultSettings (startup ++
    [.emit 0 .proxy, .run (.collector 0 .proxy) true, .run (.collector 0 .proxy) true] ++
    shutdown.take 5 ++ [.run (.collector 0 .proxy) true]) _ rfl).once
  have hlog : ∀ log : List Call, log = [.start .main 1, .stop 1, .stop 1] → ¬ log.Pairwise
      fun c c' => ∀ handle, c = .stop handle → c' ≠ .stop handle := by
    rintro log rfl
    simp
  exact hlog _ rfl hl

end Adwarden.Vpn
