import Adwarden.Lib.Automaton
import Adwarden.Net.FlowTable

/-! The per-app firewall of the forwarder: its rules, and the verdicts cached for 5-tuples. -/
namespace Adwarden.Core
open Adwarden.Lib Adwarden.Net

/-- Whether an app may use Wi-Fi and cellular, and whether its HTTPS is intercepted. -/
structure AppPolicy where
  allowWifi : Bool
  allowCellular : Bool
  inspectTls : Bool
deriving DecidableEq

structure Verdict where
  blocked : Bool
  uid : ℤ
deriving DecidableEq

abbrev Rules := AList fun _ : ℤ => AppPolicy

def verdictCacheCap : ℕ := 4096

def transportOther : UInt8 := 0

def transportWifi : UInt8 := 1

def transportCellular : UInt8 := 2

/-- The fields of the forwarder that decide on packets, with the two statistics they keep. -/
structure Firewall where
  rules : Rules
  transport : UInt8
  verdicts : FlowTable Verdict
  logOpen : Bool
  uidLookups : ℕ
  blocked : ℕ

namespace Firewall

def new : Firewall where
  rules := ∅
  transport := transportOther
  verdicts := FlowTable.new verdictCacheCap
  logOpen := false
  uidLookups := 0
  blocked := 0

/-- The cache is cleared, so that new rules take effect on the next packet of each flow. -/
def setFirewall (s : Firewall) (rules : Rules) : Firewall :=
  { s with rules := rules, verdicts := FlowTable.new verdictCacheCap }

def setTransport (s : Firewall) (transport : UInt8) : Firewall :=
  if transport ≠ s.transport then
    { s with transport := transport, verdicts := FlowTable.new verdictCacheCap }
  else s

def setLogOpen (s : Firewall) (isOpen : Bool) : Firewall := { s with logOpen := isOpen }

def policyBlocks (s : Firewall) (uid : ℤ) : Bool :=
  if uid < 0 then false
  else match s.rules.lookup uid with
    | some policy =>
      if s.transport = transportWifi then !policy.allowWifi
      else if s.transport = transportCellular then !policy.allowCellular
      else false
    | none => false

/-- Whether the app opted its HTTPS into TLS interception. -/
def appInspects (s : Firewall) (uid : ℤ) : Bool :=
  decide (0 ≤ uid) && ((s.rules.lookup uid).map AppPolicy.inspectTls).getD false

def isEmpty (s : Firewall) : Bool := s.rules.entries.isEmpty

/-- The verdict on a packet of a 5-tuple; `owner` is what `lookup_uid` returns if it is called. -/
def verdict (s : Firewall) (key : FlowKey) (owner : ℤ) : Verdict × Firewall :=
  if s.isEmpty && !s.logOpen then (⟨false, -1⟩, s)
  else match s.verdicts.get key with
    | (some cached, verdicts) => (cached, { s with verdicts := verdicts })
    | (none, verdicts) =>
      let blocked := s.policyBlocks owner
      (⟨blocked, owner⟩,
        { s with
          verdicts := verdicts.insert key ⟨blocked, owner⟩
          uidLookups := s.uidLookups + 1
          blocked := if blocked then s.blocked + 1 else s.blocked })

theorem policyBlocks_congr {s s' : Firewall} (hr : s'.rules = s.rules)
    (ht : s'.transport = s.transport) (uid : ℤ) : s'.policyBlocks uid = s.policyBlocks uid := by
  unfold policyBlocks
  rw [hr, ht]

theorem policyBlocks_of_isEmpty {s : Firewall} (h : s.isEmpty = true) (uid : ℤ) :
    s.policyBlocks uid = false := by
  have : s.rules = ∅ := AList.ext (List.isEmpty_iff.mp h)
  simp [policyBlocks, this]

/-- The uid whose policy decides on a packet: the one in the cache, if there is one. -/
def attributed (s : Firewall) (key : FlowKey) (owner : ℤ) : ℤ :=
  match s.verdicts.peek key with
  | some cached => cached.uid
  | none => owner

/-- Every cached verdict is what the current rules say of its uid. -/
def Current (s : Firewall) : Prop :=
  ∀ k v, s.verdicts.peek k = some v → v.blocked = s.policyBlocks v.uid

/-- What `verdict` does: the rules stay, and the cache afterwards holds what it held and what
this call looked up. -/
structure Judges (s : Firewall) (key : FlowKey) (owner : ℤ) (r : Verdict × Firewall) : Prop where
  rules : r.2.rules = s.rules
  transport : r.2.transport = s.transport
  cached : ∀ k v, r.2.verdicts.peek k = some v →
    s.verdicts.peek k = some v ∨
      (k = key ∧ s.verdicts.peek k = none ∧ v = ⟨s.policyBlocks owner, owner⟩)
  verdict : (s.isEmpty = true ∧ r.1.blocked = false) ∨ s.verdicts.peek key = some r.1 ∨
    (s.verdicts.peek key = none ∧ r.1 = ⟨s.policyBlocks owner, owner⟩)

theorem verdict_judges (s : Firewall) (key : FlowKey) (owner : ℤ) :
    Judges s key owner (s.verdict key owner) := by
  unfold verdict
  split_ifs with hskip
  · rw [Bool.and_eq_true] at hskip
    exact ⟨rfl, rfl, fun k v h => Or.inl h, Or.inl ⟨hskip.1, rfl⟩⟩
  · have hget := s.verdicts.get_fst key
    have hpeek := s.verdicts.peek_get key
    rcases hg : s.verdicts.get key with ⟨cached, verdicts⟩
    rw [hg] at hget hpeek
    cases cached with
    | some cached =>
      refine ⟨rfl, rfl, ?_, Or.inr (Or.inl hget.symm)⟩
      intro k v h
      exact Or.inl ((hpeek k).symm.trans h)
    | none =>
      refine ⟨rfl, rfl, ?_, Or.inr (Or.inr ⟨hget.symm, rfl⟩)⟩
      intro k v h
      rcases FlowTable.peek_insert h with ⟨rfl, rfl⟩ | ⟨-, h⟩
      · exact Or.inr ⟨rfl, hget.symm, rfl⟩
      · exact Or.inl ((hpeek k).symm.trans h)

theorem Current.verdict {s : Firewall} (h : s.Current) (key : FlowKey) (owner : ℤ) :
    (s.verdict key owner).2.Current := by
  have hj := s.verdict_judges key owner
  intro k v hv
  rw [policyBlocks_congr hj.rules hj.transport]
  rcases hj.cached k v hv with hv | ⟨-, -, rfl⟩
  · exact h k v hv
  · rfl

/-- A verdict is what the rules say of the uid the packet is attributed to. -/
theorem Current.verdict_blocked {s : Firewall} (h : s.Current) (key : FlowKey) (owner : ℤ) :
    (s.verdict key owner).1.blocked = s.policyBlocks (s.attributed key owner) := by
  unfold attributed
  rcases (s.verdict_judges key owner).verdict with ⟨he, hb⟩ | hc | ⟨hn, hv⟩
  · rw [hb, policyBlocks_of_isEmpty he]
  · rw [hc]
    exact h key _ hc
  · rw [hn, hv]

end Firewall

/-- The calls that change the rules or what they mean. -/
inductive Update where
  | setFirewall (rules : Rules)
  | setTransport (transport : UInt8)
  | setLogOpen (isOpen : Bool)

def Firewall.update (s : Firewall) : Update → Firewall
  | .setFirewall rules => s.setFirewall rules
  | .setTransport transport => s.setTransport transport
  | .setLogOpen isOpen => s.setLogOpen isOpen

theorem Firewall.Current.update {s : Firewall} (h : s.Current) (u : Update) :
    (s.update u).Current := by
  cases u with
  | setFirewall rules =>
    intro k v hv
    simp [Firewall.update, Firewall.setFirewall] at hv
  | setTransport transport =>
    change (s.setTransport transport).Current
    unfold Firewall.setTransport
    split_ifs
    · intro k v hv
      simp at hv
    · exact h
  | setLogOpen isOpen =>
    intro k v hv
    exact h k v hv

/-- An update keeps the cache or clears it. -/
theorem Firewall.peek_update {s : Firewall} {u : Update} {k : FlowKey} {v : Verdict}
    (h : (s.update u).verdicts.peek k = some v) : s.verdicts.peek k = some v := by
  cases u with
  | setFirewall rules => simp [Firewall.update, Firewall.setFirewall] at h
  | setTransport transport =>
    change (s.setTransport transport).verdicts.peek k = some v at h
    unfold Firewall.setTransport at h
    split_ifs at h
    · simp at h
    · exact h
  | setLogOpen isOpen => exact h

/-- The updates that clear the cache. -/
def Update.clears (s : Firewall) : Update → Bool
  | .setFirewall _ => true
  | .setTransport transport => transport != s.transport
  | .setLogOpen _ => false

theorem Firewall.peek_cleared {s : Firewall} {u : Update} (h : u.clears s = true) (k : FlowKey) :
    (s.update u).verdicts.peek k = none := by
  cases u with
  | setFirewall rules => exact FlowTable.peek_new _ k
  | setTransport transport =>
    have hne : transport ≠ s.transport := by simpa [Update.clears] using h
    simp [Firewall.update, Firewall.setTransport, hne]
  | setLogOpen isOpen => cases h

/-- The rules only change with the cache. -/
theorem Firewall.update_kept {s : Firewall} {u : Update} (h : u.clears s = false) :
    (s.update u).rules = s.rules ∧ (s.update u).transport = s.transport := by
  cases u with
  | setFirewall rules => cases h
  | setTransport transport =>
    have heq : transport = s.transport := by simpa [Update.clears] using h
    simp [Firewall.update, Firewall.setTransport, heq]
  | setLogOpen isOpen => exact ⟨rfl, rfl⟩

end Adwarden.Core
