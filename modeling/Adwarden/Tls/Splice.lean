import Adwarden.Tls.DnsStream

/-! What the forwarder uses of a TLS interception splice. -/
namespace Adwarden.Tls

/-- The output of one pump: TLS bytes toward each peer, and whether the splice is finished. -/
structure MitmIo where
  toApp : Bytes := []
  toUpstream : Bytes := []
  closed : Bool := false
deriving DecidableEq

class Splice (μ : Type) where
  isDns : μ → Bool
  host : μ → Option Str
  certRejected : μ → Bool
  recvFromApp : μ → Bytes → μ
  recvFromUpstream : μ → Bytes → μ
  pump : μ → MitmIo × μ
  pumpDns : (Str → Bool) → μ → MitmIo × μ
  takeDnsBlocked : μ → List Str × μ
  setCosmetic : μ → (css js : Str) → μ

/-- What comes of starting a splice, which can fail. -/
structure MitmConfigs (μ : Type) where
  newSplice : Option μ
  newSpliceDns : DnsKind → Option μ

/-- A splice filters DNS for as long as it lives, or never does. -/
class LawfulSplice (μ : Type) [Splice μ] : Prop where
  isDns_recvFromApp : ∀ (m : μ) data, Splice.isDns (Splice.recvFromApp m data) = Splice.isDns m
  isDns_recvFromUpstream :
    ∀ (m : μ) data, Splice.isDns (Splice.recvFromUpstream m data) = Splice.isDns m
  isDns_pump : ∀ m : μ, Splice.isDns (Splice.pump m).2 = Splice.isDns m
  isDns_pumpDns : ∀ isBlocked (m : μ), Splice.isDns (Splice.pumpDns isBlocked m).2 = Splice.isDns m
  isDns_takeDnsBlocked : ∀ m : μ, Splice.isDns (Splice.takeDnsBlocked m).2 = Splice.isDns m
  isDns_setCosmetic : ∀ (m : μ) css js, Splice.isDns (Splice.setCosmetic m css js) = Splice.isDns m

attribute [simp] LawfulSplice.isDns_recvFromApp LawfulSplice.isDns_recvFromUpstream
  LawfulSplice.isDns_pump LawfulSplice.isDns_pumpDns LawfulSplice.isDns_takeDnsBlocked
  LawfulSplice.isDns_setCosmetic

/-- A splice that passes on what it is fed, as it is. -/
structure PlainSplice where
  dns : Bool
  toApp : Bytes := []
  toUpstream : Bytes := []
deriving DecidableEq

namespace PlainSplice

def flush (m : PlainSplice) : MitmIo × PlainSplice :=
  ({ toApp := m.toApp, toUpstream := m.toUpstream }, { dns := m.dns })

end PlainSplice

instance : Splice PlainSplice where
  isDns m := m.dns
  host _ := none
  certRejected _ := false
  recvFromApp m data := { m with toUpstream := m.toUpstream ++ data }
  recvFromUpstream m data := { m with toApp := m.toApp ++ data }
  pump m := m.flush
  pumpDns _ m := m.flush
  takeDnsBlocked m := ([], m)
  setCosmetic m _ _ := m

instance : LawfulSplice PlainSplice where
  isDns_recvFromApp _ _ := rfl
  isDns_recvFromUpstream _ _ := rfl
  isDns_pump _ := rfl
  isDns_pumpDns _ _ := rfl
  isDns_takeDnsBlocked _ := rfl
  isDns_setCosmetic _ _ _ := rfl

/-- The splices that are started are of the kind asked for. -/
structure MitmConfigs.Lawful {μ : Type} [Splice μ] (c : MitmConfigs μ) : Prop where
  newSplice : ∀ m, c.newSplice = some m → Splice.isDns m = false
  newSpliceDns : ∀ kind m, c.newSpliceDns kind = some m → Splice.isDns m = true

end Adwarden.Tls
