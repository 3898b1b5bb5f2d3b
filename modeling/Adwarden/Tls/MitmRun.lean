import Adwarden.Lib.Automaton
import Adwarden.Tls.MitmActs

/-! A splice under the datapath: every order of arrivals, drives and the teardown. -/
namespace Adwarden.Tls
open Adwarden.Lib

/-- What the datapath does with a splice. A drive is under the filter engine of its time: which
names it blocks, and its cosmetic payload for a host. -/
inductive MitmOp where
  | fromApp (data : Bytes)
  | fromUpstream (data : Bytes)
  | drive (isBlocked : Str → Bool) (payload : Str → Str × Str)
  | teardown

/-- A splice with what the datapath has of it. -/
structure Interception (σ κ : Type) (H : Hpack) where
  mitm : TlsMitm σ κ H
  /-- The cosmetic payload, once it has been handed over. -/
  cosmetic : Option (Str × Str) := none
  /-- All that the splice has done with plaintext. -/
  events : List MitmEvent := []
  transactions : List HttpTransaction := []
  /-- The names that were answered in the resolver's place. -/
  blocked : List Str := []
  toApp : Bytes := []
  toUpstream : Bytes := []
  /-- What the last pump reported. -/
  closed : Bool := false
  tornDown : Bool := false

namespace Interception

variable {σ κ : Type} {H : Hpack} [ServerSession σ] [TlsSession κ]

def drainMitmTransactions (w : Interception σ κ H) : Interception σ κ H :=
  { w with
    mitm := w.mitm.takeTransactions.2
    transactions := w.transactions ++ w.mitm.takeTransactions.1 }

/-- Once, when the host is known. -/
def provisionCosmetics (payload : Str → Str × Str) (w : Interception σ κ H) :
    Interception σ κ H :=
  match w.cosmetic, w.mitm.host with
  | none, some host =>
    { w with
      mitm := w.mitm.setCosmetic (payload host).1 (payload host).2
      cosmetic := some (payload host) }
  | _, _ => w

def reportBlocked (w : Interception σ κ H) : Interception σ κ H :=
  { w with mitm := w.mitm.takeDnsBlocked.2, blocked := w.blocked ++ w.mitm.takeDnsBlocked.1 }

/-- After a pump. -/
def pumped (w : Interception σ κ H) (r : Pumped σ κ H) : Interception σ κ H :=
  { w with
    mitm := r.mitm
    events := w.events ++ r.events
    toApp := w.toApp ++ r.io.toApp
    toUpstream := w.toUpstream ++ r.io.toUpstream
    closed := r.io.closed }

/-- A pump, or a panic. -/
def pump (p : Profile) (isBlocked : Str → Bool) (w : Interception σ κ H) :
    Except Panic (Pumped σ κ H) :=
  if w.mitm.isDns then w.mitm.pumpDns p isBlocked else w.mitm.pump p

/-- What follows a pump: names are reported, or cosmetics handed over, and transactions drained. -/
def settle (payload : Str → Str × Str) (w : Interception σ κ H) : Interception σ κ H :=
  (if w.mitm.isDns then w.reportBlocked else w.provisionCosmetics payload).drainMitmTransactions

def driveMitm (p : Profile) (isBlocked : Str → Bool) (payload : Str → Str × Str)
    (w : Interception σ κ H) : Option (Interception σ κ H) :=
  match w.pump p isBlocked with
  | .ok r => some ((w.pumped r).settle payload)
  | .error _ => none

def teardown (w : Interception σ κ H) : Interception σ κ H :=
  ({ w with mitm := w.mitm.finish, events := w.events ++ [.finished], tornDown := true } :
    Interception σ κ H).drainMitmTransactions

/-- A panic ends the datapath, and nothing is done with a splice after its teardown. -/
def step (p : Profile) (w : Interception σ κ H) (op : MitmOp) : Option (Interception σ κ H) :=
  if w.tornDown then none
  else match op with
    | .fromApp data => some { w with mitm := w.mitm.recvFromApp data }
    | .fromUpstream data => some { w with mitm := w.mitm.recvFromUpstream data }
    | .drive isBlocked payload => w.driveMitm p isBlocked payload
    | .teardown => some w.teardown

def automaton (p : Profile) (m : TlsMitm σ κ H) : Automaton (Interception σ κ H) MitmOp where
  init := { mitm := m }
  step := step p

section Rules

variable {p : Profile} {w w' : Interception σ κ H}

/-- Of the splice and the record of its plaintext: what its acts and the datapath keep. -/
structure Keeps (p : Profile) (P : List MitmEvent → TlsMitm σ κ H → Prop) : Prop where
  act : ∀ {isBlocked zs m xs m'}, P zs m → m.Act p isBlocked xs m' → P (zs ++ xs) m'
  takeTransactions : ∀ {zs m}, P zs m → P zs m.takeTransactions.2
  takeDnsBlocked : ∀ {zs m}, P zs m → P zs m.takeDnsBlocked.2
  setCosmetic : ∀ {zs m} css js, P zs m → P zs (m.setCosmetic css js)

/-- What does not depend on the handler of plaintext is kept by what the datapath takes and
hands over. -/
theorem Keeps.of_act {P : List MitmEvent → TlsMitm σ κ H → Prop}
    (hact : ∀ {isBlocked zs m xs m'}, P zs m → m.Act p isBlocked xs m' → P (zs ++ xs) m')
    (hplain : ∀ {zs m} t, P zs m → P zs { m with plaintext := t }) : Keeps p P where
  act := hact
  takeTransactions {zs m} h := by
    unfold TlsMitm.takeTransactions
    split
    · exact hplain _ h
    · exact h
  takeDnsBlocked {zs m} h := by
    unfold TlsMitm.takeDnsBlocked
    split
    · exact hplain _ h
    · exact h
  setCosmetic {zs m} css js h := by
    unfold TlsMitm.setCosmetic
    split
    · exact hplain _ h
    · exact h

theorem Keeps.acts {P : List MitmEvent → TlsMitm σ κ H → Prop} (h : Keeps p P)
    {isBlocked : Str → Bool} {zs xs : List MitmEvent} {m m' : TlsMitm σ κ H} (hm : P zs m)
    (hacts : m.Acts p isBlocked xs m') : P (zs ++ xs) m' :=
  hacts.invariant h.act hm

omit [ServerSession σ] [TlsSession κ] in
private theorem drain_eq (w : Interception σ κ H) : ∃ plaintext transactions,
    w.drainMitmTransactions = { w with mitm := { w.mitm with plaintext }, transactions } := by
  unfold drainMitmTransactions TlsMitm.takeTransactions
  cases w.mitm.plaintext with
  | http h => exact ⟨_, _, rfl⟩
  | dns d => exact ⟨w.mitm.plaintext, w.transactions ++ [], rfl⟩

omit [ServerSession σ] [TlsSession κ] in
theorem teardown_eq (w : Interception σ κ H) : ∃ plaintext transactions, w.teardown = { w with
    mitm := { w.mitm with plaintext }, events := w.events ++ [.finished], transactions,
    tornDown := true } := by
  obtain ⟨t, ht⟩ := w.mitm.finish_eq
  obtain ⟨t', txns, h⟩ := drain_eq
    { w with mitm := w.mitm.finish, events := w.events ++ [.finished], tornDown := true }
  refine ⟨t', txns, ?_⟩
  rw [teardown, h, ht]

omit [ServerSession σ] [TlsSession κ] in
/-- After a pump, only the handler of plaintext is touched. -/
theorem settle_eq (payload : Str → Str × Str) (w : Interception σ κ H) :
    ∃ plaintext cosmetic transactions blocked, w.settle payload = { w with
      mitm := { w.mitm with plaintext }, cosmetic, transactions, blocked } := by
  obtain ⟨t, txns, h⟩ := drain_eq
    (if w.mitm.isDns then w.reportBlocked else w.provisionCosmetics payload)
  unfold settle
  rw [h]
  split_ifs
  · unfold reportBlocked TlsMitm.takeDnsBlocked
    cases w.mitm.plaintext with
    | http h => exact ⟨t, w.cosmetic, txns, w.blocked ++ [], rfl⟩
    | dns d => exact ⟨t, w.cosmetic, txns, _, rfl⟩
  · unfold provisionCosmetics TlsMitm.setCosmetic
    split
    · cases w.mitm.plaintext with
      | http h => exact ⟨t, _, txns, w.blocked, rfl⟩
      | dns d => exact ⟨t, _, txns, w.blocked, rfl⟩
    · exact ⟨t, w.cosmetic, txns, w.blocked, rfl⟩

theorem Keeps.settle {P : List MitmEvent → TlsMitm σ κ H → Prop} (h : Keeps p P)
    (payload : Str → Str × Str) (hw : P w.events w.mitm) :
    P (w.settle payload).events (w.settle payload).mitm := by
  unfold Interception.settle
  split_ifs
  · exact h.takeTransactions (h.takeDnsBlocked hw)
  · unfold provisionCosmetics
    split
    · exact h.takeTransactions (h.setCosmetic _ _ hw)
    · exact h.takeTransactions hw

variable [LawfulServer σ]

/-- A pump is made of acts, under the engine of its time where it filters names. -/
theorem pump_acts {isBlocked : Str → Bool} {r : Pumped σ κ H} (h : w.pump p isBlocked = .ok r) :
    w.mitm.Acts p (if w.mitm.isDns then isBlocked else fun _ => false) r.events r.mitm ∧
      r.io.closed = (r.mitm.failed || (r.mitm.appClosed && r.mitm.upstreamClosed)) := by
  unfold pump at h
  split_ifs at h ⊢
  · exact TlsMitm.pumpImpl_acts h
  · exact TlsMitm.pumpImpl_acts h

omit [LawfulServer σ] in
theorem pump_failed (isBlocked : Str → Bool) (hf : w.mitm.failed = true) :
    w.pump p isBlocked = .ok (TlsMitm.failedPump [] w.mitm) := by
  unfold pump
  split_ifs
  · exact TlsMitm.pumpImpl_failed hf
  · exact TlsMitm.pumpImpl_failed hf

/-- The steps: the splice takes bytes in, it is driven, or it is torn down. -/
theorem step_cases {op : MitmOp} (h : w.step p op = some w') :
    (∃ m, (∀ isBlocked payload, op ≠ .drive isBlocked payload) ∧
      w.mitm.Received m ∧ w.mitm.Acts p (fun _ => false) [] m ∧ w' = { w with mitm := m }) ∨
    (∃ isBlocked payload r, op = .drive isBlocked payload ∧ w.pump p isBlocked = .ok r ∧
      w' = (w.pumped r).settle payload) ∨
    (op = .teardown ∧ w' = w.teardown) := by
  unfold Interception.step at h
  split_ifs at h
  cases op with
  | fromApp data =>
    obtain rfl := Option.some.inj h
    exact Or.inl ⟨_, fun _ _ h => (by cases h), w.mitm.recvFromApp_received data,
      TlsMitm.recvFromApp_acts p (fun _ => false) w.mitm data, rfl⟩
  | fromUpstream data =>
    obtain rfl := Option.some.inj h
    exact Or.inl ⟨_, fun _ _ h => (by cases h), w.mitm.recvFromUpstream_received data,
      TlsMitm.recvFromUpstream_acts p (fun _ => false) w.mitm data, rfl⟩
  | drive isBlocked payload =>
    right
    left
    dsimp only [driveMitm] at h
    cases hr : w.pump p isBlocked with
    | error e =>
      rw [hr] at h
      cases h
    | ok r =>
      rw [hr] at h
      exact ⟨isBlocked, payload, r, rfl, hr, (Option.some.inj h).symm⟩
  | teardown =>
    obtain rfl := Option.some.inj h
    exact Or.inr (Or.inr ⟨rfl, rfl⟩)

theorem Keeps.step {P : List MitmEvent → TlsMitm σ κ H → Prop} (h : Keeps p P) {op : MitmOp}
    (hs : w.step p op = some w') (hw : P w.events w.mitm) : P w'.events w'.mitm := by
  obtain ⟨m, -, -, hacts, rfl⟩ | ⟨isBlocked, payload, r, -, hr, rfl⟩ | ⟨-, rfl⟩ := step_cases hs
  · simpa using h.acts hw hacts
  · exact h.settle payload (w := w.pumped r) (h.acts hw (pump_acts hr).1)
  · exact h.takeTransactions (h.acts hw (TlsMitm.finish_acts p (fun _ => false) w.mitm))

end Rules

end Interception

end Adwarden.Tls
