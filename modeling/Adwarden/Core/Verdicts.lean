import Adwarden.Core.Firewall

/-! Verdicts over whole runs: with the owner of each 5-tuple fixed they follow the current rules;
with 5-tuples that pass from one app to another, a cached verdict can outlive its connection. -/
namespace Adwarden.Core
open Adwarden.Lib Adwarden.Net

/-- A call on the forwarder when the owner of each 5-tuple is fixed. -/
inductive Call where
  | update (u : Update)
  | verdict (key : FlowKey)

def Firewall.call (owner : FlowKey → ℤ) (s : Firewall) : Call → Firewall
  | .update u => s.update u
  | .verdict key => (s.verdict key (owner key)).2

def Firewall.calls (owner : FlowKey → ℤ) (cs : List Call) : Firewall :=
  cs.foldl (Firewall.call owner) Firewall.new

namespace Firewall

/-- The cache of a forwarder whose 5-tuples have fixed owners. -/
structure Owned (owner : FlowKey → ℤ) (s : Firewall) : Prop where
  current : s.Current
  uid : ∀ k v, s.verdicts.peek k = some v → v.uid = owner k

variable {owner : FlowKey → ℤ}

theorem peek_new (k : FlowKey) : Firewall.new.verdicts.peek k = none := FlowTable.peek_new _ k

theorem Current.new : Firewall.new.Current := by
  intro k v h
  rw [peek_new] at h
  contradiction

theorem Owned.new : Firewall.new.Owned owner := by
  refine ⟨Current.new, ?_⟩
  intro k v h
  rw [peek_new] at h
  contradiction

theorem Owned.verdict {s : Firewall} (h : s.Owned owner) (key : FlowKey) :
    (s.verdict key (owner key)).2.Owned owner := by
  refine ⟨h.current.verdict key _, ?_⟩
  intro k v hv
  rcases (s.verdict_judges key (owner key)).cached k v hv with hv | ⟨rfl, -, rfl⟩
  · exact h.uid k v hv
  · rfl

theorem Owned.update {s : Firewall} (h : s.Owned owner) (u : Update) :
    (s.update u).Owned owner := by
  refine ⟨h.current.update u, ?_⟩
  intro k v hv
  exact h.uid k v (peek_update hv)

theorem Owned.calls (cs : List Call) : (Firewall.calls owner cs).Owned owner := by
  unfold Firewall.calls
  induction cs using List.reverseRecOn with
  | nil => exact Owned.new
  | append_singleton cs c ih =>
    rw [List.foldl_append]
    cases c with
    | update u => exact ih.update u
    | verdict key => exact ih.verdict key

theorem Owned.attributed {s : Firewall} (h : s.Owned owner) (key : FlowKey) :
    s.attributed key (owner key) = owner key := by
  unfold Firewall.attributed
  cases hk : s.verdicts.peek key with
  | none => rfl
  | some v => exact h.uid key v hk

end Firewall

/-- After any calls, the cache holds what the current rules say, and a verdict is what they say of
the owner. -/
theorem verdicts_follow_rules (owner : FlowKey → ℤ) (cs : List Call) :
    (∀ k v, (Firewall.calls owner cs).verdicts.peek k = some v →
      v.blocked = (Firewall.calls owner cs).policyBlocks v.uid) ∧
    ∀ key, ((Firewall.calls owner cs).verdict key (owner key)).1.blocked =
      (Firewall.calls owner cs).policyBlocks (owner key) := by
  have h : (Firewall.calls owner cs).Owned owner := Firewall.Owned.calls cs
  refine ⟨h.current, ?_⟩
  intro key
  rw [h.current.verdict_blocked, h.attributed]

/-- The forwarder and the connections that are open: each 5-tuple with the uid that owns it. -/
structure Device where
  firewall : Firewall
  owners : AList fun _ : FlowKey => ℤ

/-- `lookup` is the uid that `lookup_uid` returns if this packet makes it run. -/
inductive DeviceEvent where
  | update (u : Update)
  | opens (key : FlowKey) (uid : ℤ)
  | ends (key : FlowKey)
  | packet (key : FlowKey) (lookup : ℤ)

/-- Closing a connection removes its sockets (`teardown_tcp`, `reap_idle`) and no verdict. -/
def Device.step (d : Device) : DeviceEvent → Option Device
  | .update u => some { d with firewall := d.firewall.update u }
  | .opens key uid =>
    if (d.owners.lookup key).isSome then none
    else some { d with owners := d.owners.insert key uid }
  | .ends key => some { d with owners := d.owners.erase key }
  | .packet key lookup =>
    if (d.owners.lookup key).isSome then
      some { d with firewall := (d.firewall.verdict key lookup).2 }
    else none

def device : Automaton Device DeviceEvent := ⟨⟨Firewall.new, ∅⟩, Device.step⟩

/-- A packet is judged by the policy of the app whose connection it belongs to. -/
def JudgedByOwner (d : Device) : DeviceEvent → Prop
  | .packet key lookup => ∀ owner ∈ d.owners.lookup key,
    (d.firewall.verdict key lookup).1.blocked = d.firewall.policyBlocks owner
  | _ => True

instance (d : Device) : DecidablePred (JudgedByOwner d)
  | .packet key lookup => inferInstanceAs (Decidable (∀ owner ∈ d.owners.lookup key,
      (d.firewall.verdict key lookup).1.blocked = d.firewall.policyBlocks owner))
  | .update _ => isTrue trivial
  | .opens _ _ => isTrue trivial
  | .ends _ => isTrue trivial

/-- A device, and the owners whose packets have been judged by the entries of its cache. -/
structure Watched where
  device : Device
  served : List (FlowKey × ℤ)

/-- A packet that finds no entry for its 5-tuple is the first one of the entry it makes. -/
def Watched.serve (s : Watched) : DeviceEvent → List (FlowKey × ℤ)
  | .update u => if u.clears s.device.firewall then [] else s.served
  | .packet key _ =>
    (if s.device.firewall.verdicts.contains key then s.served
      else s.served.filter fun r => r.1 ≠ key) ++
      (s.device.owners.lookup key).toList.map fun owner => (key, owner)
  | _ => s.served

def watched : Automaton Watched DeviceEvent where
  init := ⟨device.init, []⟩
  step s e := (s.device.step e).map fun d => ⟨d, s.serve e⟩

theorem watched_step (s : Watched) (e : DeviceEvent) :
    device.step s.device e = (watched.step s e).map Watched.device := by
  simp [watched, device, Function.comp_def]

/-- A packet that finds an entry is of an owner under the policy of all those that the entry has
served, and the lookup of one that finds none returns a uid under the policy of its owner. -/
def Unmixed (s : Watched) : DeviceEvent → Prop
  | .packet key lookup => ∀ owner ∈ s.device.owners.lookup key,
    if s.device.firewall.verdicts.contains key then
      ∀ uid, (key, uid) ∈ s.served →
        s.device.firewall.policyBlocks uid = s.device.firewall.policyBlocks owner
    else s.device.firewall.policyBlocks lookup = s.device.firewall.policyBlocks owner
  | _ => True

/-- What the cache says is the policy of those it has said it of. -/
structure Watched.Serves (s : Watched) : Prop where
  current : s.device.firewall.Current
  served : ∀ k v, s.device.firewall.verdicts.peek k = some v → ∃ uid, (k, uid) ∈ s.served
  alike : ∀ k v uid, s.device.firewall.verdicts.peek k = some v → (k, uid) ∈ s.served →
    s.device.firewall.policyBlocks uid = v.blocked

namespace Watched

variable {s : Watched} {key : FlowKey} {lookup owner : ℤ}

theorem Serves.new : watched.init.Serves := by
  refine ⟨Firewall.Current.new, fun k v h => ?_, fun k v uid h => ?_⟩
  · cases (Firewall.peek_new k).symm.trans h
  · cases (Firewall.peek_new k).symm.trans h

/-- A packet is judged by the policy of its owner when its 5-tuple was not mixed up. -/
theorem Serves.judged_iff (h : s.Serves) (hopen : s.device.owners.lookup key = some owner) :
    JudgedByOwner s.device (.packet key lookup) ↔ Unmixed s (.packet key lookup) := by
  simp only [JudgedByOwner, Unmixed, hopen, Option.mem_some_iff, forall_eq',
    FlowTable.contains_eq, h.current.verdict_blocked, Firewall.attributed]
  cases hk : s.device.firewall.verdicts.peek key with
  | none => simp
  | some v =>
    have hv := h.current key v hk
    dsimp only
    rw [if_pos (show (some v).isSome = true from rfl), ← hv]
    obtain ⟨uid, huid⟩ := h.served key v hk
    constructor
    · intro hsame uid' huid'
      rw [h.alike key v uid' hk huid', hsame]
    · intro hall
      rw [← hall uid huid, h.alike key v uid hk huid]

theorem Serves.update (h : s.Serves) (u : Update) :
    Serves ⟨{ s.device with firewall := s.device.firewall.update u }, s.serve (.update u)⟩ := by
  refine ⟨h.current.update u, ?_, ?_⟩
  · intro k v hv
    cases hc : u.clears s.device.firewall with
    | true => cases (Firewall.peek_cleared hc k).symm.trans hv
    | false =>
      simp only [serve, hc]
      exact h.served k v (Firewall.peek_update hv)
  · intro k v uid hv huid
    cases hc : u.clears s.device.firewall with
    | true => cases (Firewall.peek_cleared hc k).symm.trans hv
    | false =>
      simp only [serve, hc] at huid
      obtain ⟨hrules, htransport⟩ := Firewall.update_kept hc
      rw [Firewall.policyBlocks_congr hrules htransport]
      exact h.alike k v uid (Firewall.peek_update hv) huid

theorem Serves.packet (h : s.Serves) (hopen : s.device.owners.lookup key = some owner)
    (hunmixed : Unmixed s (.packet key lookup)) :
    Serves ⟨{ s.device with firewall := (s.device.firewall.verdict key lookup).2 },
      s.serve (.packet key lookup)⟩ := by
  have hj := s.device.firewall.verdict_judges key lookup
  have hcond := hunmixed owner hopen
  have hserve : s.serve (.packet key lookup) =
      (if s.device.firewall.verdicts.contains key then s.served
        else s.served.filter fun r => r.1 ≠ key) ++ [(key, owner)] := by
    simp only [serve, hopen, Option.toList_some, List.map_cons, List.map_nil]
  rw [hserve]
  rw [FlowTable.contains_eq] at hcond ⊢
  refine ⟨h.current.verdict key lookup, ?_, ?_⟩
  · intro k v hv
    rcases hj.cached k v hv with hold | ⟨rfl, -, -⟩
    · obtain ⟨uid, huid⟩ := h.served k v hold
      by_cases hk : k = key
      · subst hk
        exact ⟨owner, by simp⟩
      · refine ⟨uid, List.mem_append_left _ ?_⟩
        split_ifs
        · exact huid
        · exact List.mem_filter.mpr ⟨huid, by simpa using hk⟩
    · exact ⟨owner, by simp⟩
  · intro k v uid hv huid
    rw [Firewall.policyBlocks_congr hj.rules hj.transport]
    cases hk : s.device.firewall.verdicts.peek key with
    | some cached =>
      -- The entry stays, and serves one more packet.
      simp only [hk, Option.isSome_some, if_true] at hcond huid
      rcases hj.cached k v hv with hold | ⟨rfl, hnone, -⟩
      · rcases List.mem_append.mp huid with huid | huid
        · exact h.alike k v uid hold huid
        · obtain ⟨rfl, rfl⟩ := Prod.mk.inj (List.mem_singleton.mp huid)
          obtain ⟨first, hfirst⟩ := h.served k v hold
          rw [← hcond first hfirst, h.alike k v first hold hfirst]
      · cases hk.symm.trans hnone
    | none =>
      -- The entry is a new one, which has served this packet only.
      simp only [hk, Option.isSome_none, Bool.false_eq_true, if_false] at hcond huid
      rcases hj.cached k v hv with hold | ⟨rfl, -, rfl⟩
      · rcases List.mem_append.mp huid with huid | huid
        · exact h.alike k v uid hold (List.mem_filter.mp huid).1
        · obtain ⟨rfl, rfl⟩ := Prod.mk.inj (List.mem_singleton.mp huid)
          cases hk.symm.trans hold
      · rcases List.mem_append.mp huid with huid | huid
        · have hother := (List.mem_filter.mp huid).2
          simp at hother
        · obtain ⟨-, rfl⟩ := Prod.mk.inj (List.mem_singleton.mp huid)
          exact hcond.symm

theorem Serves.step {e : DeviceEvent} {s' : Watched} (h : s.Serves) (he : Unmixed s e)
    (hs : watched.step s e = some s') : s'.Serves := by
  obtain ⟨d, hd, rfl⟩ := Option.map_eq_some_iff.mp hs
  cases e with
  | update u =>
    obtain rfl := Option.some.inj hd
    exact h.update u
  | opens key uid =>
    simp only [Device.step] at hd
    split_ifs at hd
    obtain rfl := Option.some.inj hd
    exact ⟨h.current, h.served, h.alike⟩
  | ends key =>
    obtain rfl := Option.some.inj hd
    exact ⟨h.current, h.served, h.alike⟩
  | packet key lookup =>
    simp only [Device.step] at hd
    split_ifs at hd with hopen
    obtain rfl := Option.some.inj hd
    obtain ⟨owner, howner⟩ := Option.isSome_iff_exists.mp hopen
    exact h.packet howner he

end Watched

/-- Every packet is judged by the policy of its owner in exactly the runs in which no 5-tuple goes
to an owner under another policy while its verdict is cached, and no lookup returns a uid under
another policy than the owner's. -/
theorem packets_judged_by_owner_iff (es : List DeviceEvent) :
    device.EachStep JudgedByOwner device.init es ↔ watched.EachStep Unmixed watched.init es := by
  refine (Automaton.eachStep_map Watched.device watched_step JudgedByOwner watched.init es).trans ?_
  have hagree (s : Watched) (e : DeviceEvent) (s' : Watched) (hs : s.Serves)
      (hstep : watched.step s e = some s') : JudgedByOwner s.device e ↔ Unmixed s e := by
    cases e with
    | packet key lookup =>
      obtain ⟨d, hd, -⟩ := Option.map_eq_some_iff.mp hstep
      simp only [Device.step] at hd
      split_ifs at hd with hopen
      obtain ⟨owner, howner⟩ := Option.isSome_iff_exists.mp hopen
      exact hs.judged_iff howner
    | update u => exact Iff.rfl
    | opens key uid => exact Iff.rfl
    | ends key => exact Iff.rfl
  exact Automaton.eachStep_congr_of (fun s e s' hs he hstep =>
    hs.step ((hagree s e s' hs hstep).mp he) hstep) hagree Watched.Serves.new es

/-- TCP from port 40000 of the tunnel address to port 443. -/
def reusedKey : FlowKey :=
  ⟨6, .ofOctets 10 111 222 2, 40000, .ofOctets 1 1 1 1, 443⟩

/-- App 10 may not use Wi-Fi and app 20 may; the second connection on a 5-tuple inherits the
verdict of the first. -/
theorem reused_key_keeps_verdict :
    ¬ device.EachStep JudgedByOwner device.init
      [.update (.setFirewall (AList.singleton 10 ⟨false, true, false⟩)),
        .update (.setTransport transportWifi),
        .opens reusedKey 10, .packet reusedKey 10, .ends reusedKey,
        .opens reusedKey 20, .packet reusedKey 20] := by
  decide +kernel

end Adwarden.Core
