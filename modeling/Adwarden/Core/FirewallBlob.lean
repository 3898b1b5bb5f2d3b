import Adwarden.Core.Firewall
import Adwarden.Rust.Bytes
import Adwarden.Rust.Str

/-! The blob that carries the per-app rules from the app's settings to the firewall. The rules are
rows of packages, and packages can share a uid; the firewall is keyed by uid. -/
namespace Adwarden.Core

/-- A stored rule. A row exists only for an app with a policy other than the default one. -/
structure AppRule where
  packageName : Str
  uid : Int32
  allowWifi : Bool
  allowCellular : Bool
  inspectTls : Bool
deriving DecidableEq

def AppRule.policy (r : AppRule) : AppPolicy := ⟨r.allowWifi, r.allowCellular, r.inspectTls⟩

def u32ToLeBytes (n : UInt32) : Bytes :=
  [n.toUInt8, (n >>> 8).toUInt8, (n >>> 16).toUInt8, (n >>> 24).toUInt8]

def u32FromLeBytes (b0 b1 b2 b3 : UInt8) : UInt32 :=
  UInt32.ofNat (b0.toNat + 256 * (b1.toNat + 256 * (b2.toNat + 256 * b3.toNat)))

def flagByte (flag : Bool) : UInt8 := if flag then 1 else 0

def encodeRule (r : AppRule) : Bytes :=
  u32ToLeBytes r.uid.toUInt32 ++
    [flagByte r.allowWifi, flagByte r.allowCellular, flagByte r.inspectTls]

/-- `encodeBlob`; the buffer cannot be allocated when its size overflows an `Int`. -/
def encodeBlob (rules : List AppRule) : Option Bytes :=
  if 4 + rules.length * 7 < 2 ^ 31 then
    some (u32ToLeBytes (UInt32.ofNat rules.length) ++ rules.flatMap encodeRule)
  else none

/-- The loop of `parse_firewall`, which ends early when the blob does. -/
def parseRules : ℕ → Bytes → Rules → Rules
  | 0, _, map => map
  | n + 1, u0 :: u1 :: u2 :: u3 :: wifi :: cellular :: inspect :: rest, map =>
    let uid := (u32FromLeBytes u0 u1 u2 u3).toInt32.toInt
    parseRules n rest (map.insert uid ⟨wifi != 0, cellular != 0, inspect != 0⟩)
  | _ + 1, _, map => map

def parseFirewall (blob : Bytes) : Rules :=
  match blob with
  | c0 :: c1 :: c2 :: c3 :: rest => parseRules (u32FromLeBytes c0 c1 c2 c3).toNat rest ∅
  | _ => ∅

section Codec

theorem u32FromLeBytes_toLeBytes (n : UInt32) :
    u32FromLeBytes n.toUInt8 (n >>> 8).toUInt8 (n >>> 16).toUInt8 (n >>> 24).toUInt8 = n := by
  apply UInt32.toNat_inj.mp
  have hn := n.toNat_lt
  have h8 : UInt32.toNat 8 % 32 = 8 := rfl
  have h16 : UInt32.toNat 16 % 32 = 16 := rfl
  have h24 : UInt32.toNat 24 % 32 = 24 := rfl
  simp only [u32FromLeBytes, UInt32.toNat_ofNat', UInt32.toNat_toUInt8, UInt32.toNat_shiftRight,
    Nat.shiftRight_eq_div_pow, h8, h16, h24]
  omega

theorem flagByte_ne_zero (flag : Bool) : (flagByte flag != 0) = flag := by
  cases flag <;> decide

/-- A record is read back as the policy of its row. -/
theorem parseRules_encodeRule (r : AppRule) (n : ℕ) (rest : Bytes) (map : Rules) :
    parseRules (n + 1) (encodeRule r ++ rest) map =
      parseRules n rest (map.insert r.uid.toInt r.policy) := by
  simp only [encodeRule, u32ToLeBytes, List.cons_append, List.nil_append, parseRules,
    u32FromLeBytes_toLeBytes, flagByte_ne_zero, Int32.toInt32_toUInt32]
  rfl

/-- The map after all rows have been inserted, one after the other. -/
def insertRows (rules : List AppRule) (map : Rules) : Rules :=
  rules.foldl (fun map r => map.insert r.uid.toInt r.policy) map

theorem parseRules_flatMap (rules : List AppRule) (map : Rules) :
    parseRules rules.length (rules.flatMap encodeRule) map = insertRows rules map := by
  induction rules generalizing map with
  | nil => rfl
  | cons r rules ih =>
    rw [List.length_cons, List.flatMap_cons, parseRules_encodeRule, ih]
    rfl

/-- The decoder rebuilds the map row by row. -/
theorem parseFirewall_encodeBlob {rules : List AppRule} {blob : Bytes}
    (h : encodeBlob rules = some blob) : parseFirewall blob = insertRows rules ∅ := by
  unfold encodeBlob at h
  split_ifs at h with hsize
  obtain rfl := Option.some.inj h
  have hcount : (UInt32.ofNat rules.length).toNat = rules.length := by
    rw [UInt32.toNat_ofNat']
    omega
  simp only [parseFirewall, u32ToLeBytes, List.cons_append, List.nil_append,
    u32FromLeBytes_toLeBytes, hcount]
  exact parseRules_flatMap rules ∅

end Codec

section Enforcement

/-- The last row with a uid, which is the one the map keeps. -/
def lastRow (rules : List AppRule) (uid : Int32) : Option AppRule :=
  rules.reverse.find? fun r => r.uid == uid

theorem lookup_insertRows (rules : List AppRule) (uid : Int32) :
    (insertRows rules ∅).lookup uid.toInt = (lastRow rules uid).map AppRule.policy := by
  induction rules using List.reverseRecOn with
  | nil => rfl
  | append_singleton rules r ih =>
    have hstep : insertRows (rules ++ [r]) ∅ =
        (insertRows rules ∅).insert r.uid.toInt r.policy := by
      simp [insertRows]
    rw [hstep]
    unfold lastRow at ih ⊢
    rw [List.reverse_append, List.reverse_singleton, List.singleton_append, List.find?_cons]
    by_cases hr : r.uid = uid
    · simp [hr]
    · have hne : uid.toInt ≠ r.uid.toInt := fun h => hr (Int32.toInt_inj.mp h.symm)
      rw [AList.lookup_insert_ne hne, ih, beq_eq_false_iff_ne.mpr hr]

theorem mem_insertRows {rules : List AppRule} {uid : ℤ} (h : uid ∈ insertRows rules ∅) :
    ∃ r ∈ rules, r.uid.toInt = uid := by
  induction rules using List.reverseRecOn with
  | nil => exact absurd h (AList.notMem_empty uid)
  | append_singleton rules r ih =>
    have hstep : insertRows (rules ++ [r]) ∅ =
        (insertRows rules ∅).insert r.uid.toInt r.policy := by
      simp [insertRows]
    rw [hstep, AList.mem_insert] at h
    rcases h with rfl | h
    · exact ⟨r, by simp, rfl⟩
    · obtain ⟨r', hr', hu⟩ := ih h
      exact ⟨r', by simp [hr'], hu⟩

theorem lastRow_some {rules : List AppRule} {uid : Int32} {r : AppRule}
    (h : lastRow rules uid = some r) : r ∈ rules ∧ r.uid = uid := by
  have hm := List.mem_of_find?_eq_some h
  have hp := List.find?_some h
  exact ⟨List.mem_reverse.mp hm, by simpa using hp⟩

theorem lastRow_isSome {rules : List AppRule} {r : AppRule} (h : r ∈ rules) :
    ∃ l, lastRow rules r.uid = some l := by
  apply Option.isSome_iff_exists.mp
  unfold lastRow
  rw [List.find?_isSome]
  exact ⟨r, List.mem_reverse.mpr h, by simp⟩

/-- The uids that a decoded map denies a network, which `allow` tells of a policy. -/
def Denies (map : Rules) (allow : AppPolicy → Bool) (uid : ℤ) : Prop :=
  ∃ p, map.lookup uid = some p ∧ allow p = false

/-- On a network the map denies exactly what some row denies. -/
def EnforcesOn (rules : List AppRule) (map : Rules) (allow : AppPolicy → Bool) : Prop :=
  ∀ uid : Int32, Denies map allow uid.toInt ↔
    ∃ r ∈ rules, r.uid = uid ∧ allow r.policy = false

/-- Every rule is enforced on both networks, and no other uid has a policy. -/
structure Enforces (rules : List AppRule) (map : Rules) : Prop where
  wifi : EnforcesOn rules map AppPolicy.allowWifi
  cellular : EnforcesOn rules map AppPolicy.allowCellular
  uids : ∀ uid ∈ map, ∃ r ∈ rules, r.uid.toInt = uid

/-- The last row of each uid denies a network if any row of it does. -/
def LastRowDenies (rules : List AppRule) (allow : AppPolicy → Bool) : Prop :=
  ∀ r ∈ rules, allow r.policy = false →
    ∀ l, lastRow rules r.uid = some l → allow l.policy = false

theorem enforcesOn_iff (rules : List AppRule) (allow : AppPolicy → Bool) :
    EnforcesOn rules (insertRows rules ∅) allow ↔ LastRowDenies rules allow := by
  constructor
  · intro h r hr hdeny l hl
    obtain ⟨p, hp, hpd⟩ := (h r.uid).mpr ⟨r, hr, rfl, hdeny⟩
    rw [lookup_insertRows, hl] at hp
    obtain rfl := Option.some.inj hp
    exact hpd
  · intro h uid
    unfold Denies
    rw [lookup_insertRows]
    constructor
    · rintro ⟨p, hp, hpd⟩
      obtain ⟨l, hl, rfl⟩ := Option.map_eq_some_iff.mp hp
      obtain ⟨hmem, hu⟩ := lastRow_some hl
      exact ⟨l, hmem, hu, hpd⟩
    · rintro ⟨r, hr, rfl, hdeny⟩
      obtain ⟨l, hl⟩ := lastRow_isSome hr
      exact ⟨l.policy, by rw [hl]; rfl, h r hr hdeny l hl⟩

/-- Whether a policy lets an app use a network. -/
def AppPolicy.allows (transport : UInt8) (p : AppPolicy) : Bool :=
  if transport = transportWifi then p.allowWifi
  else if transport = transportCellular then p.allowCellular
  else true

/-- What the firewall blocks on a network is what the map denies there. -/
theorem policyBlocks_setFirewall (s : Firewall) (map : Rules) (transport : UInt8) {uid : ℤ}
    (hu : 0 ≤ uid) :
    ((s.setFirewall map).setTransport transport).policyBlocks uid = true ↔
      Denies map (AppPolicy.allows transport) uid := by
  have hr : ((s.setFirewall map).setTransport transport).rules = map := by
    unfold Firewall.setTransport
    split_ifs <;> rfl
  have ht : ((s.setFirewall map).setTransport transport).transport = transport := by
    unfold Firewall.setTransport
    split_ifs with h
    · rfl
    · exact (not_not.mp h).symm
  unfold Firewall.policyBlocks Denies
  rw [if_neg (not_lt.mpr hu), hr, ht]
  cases map.lookup uid with
  | none => simp
  | some p =>
    unfold AppPolicy.allows
    split_ifs <;> simp [*]

/-- An app is blocked on either network exactly when a rule with its uid denies it. -/
theorem Enforces.policyBlocks {rules : List AppRule} {map : Rules} (h : Enforces rules map)
    (s : Firewall) (transport : UInt8) {uid : Int32} (hu : 0 ≤ uid.toInt) :
    ((s.setFirewall map).setTransport transport).policyBlocks uid.toInt = true ↔
      ∃ r ∈ rules, r.uid = uid ∧ r.policy.allows transport = false := by
  rw [policyBlocks_setFirewall s map transport hu]
  unfold AppPolicy.allows
  split_ifs with hwifi hcellular
  · exact h.wifi uid
  · exact h.cellular uid
  · simp [Denies]

/-- The firewall enforces every rule if and only if rows that share a uid end with one that
denies whatever any of them denies. -/
theorem enforces_parseFirewall_iff {rules : List AppRule} {blob : Bytes}
    (h : encodeBlob rules = some blob) :
    Enforces rules (parseFirewall blob) ↔
      LastRowDenies rules AppPolicy.allowWifi ∧ LastRowDenies rules AppPolicy.allowCellular := by
  rw [parseFirewall_encodeBlob h]
  constructor
  · intro he
    exact ⟨(enforcesOn_iff rules _).mp he.wifi, (enforcesOn_iff rules _).mp he.cellular⟩
  · rintro ⟨hw, hc⟩
    exact ⟨(enforcesOn_iff rules _).mpr hw, (enforcesOn_iff rules _).mpr hc,
      fun uid hu => mem_insertRows hu⟩

/-- A package that is denied Wi-Fi. -/
def deniedRow : AppRule := ⟨Str.lit "a", 10001, false, true, false⟩

/-- Another package with its uid, which is denied cellular. -/
def sharingRow : AppRule := ⟨Str.lit "b", 10001, true, false, false⟩

/-- A third package with their uid, which is denied both, and one with another uid. -/
def sharedRows : List AppRule :=
  [deniedRow, sharingRow, ⟨Str.lit "c", 10001, false, false, false⟩,
    ⟨Str.lit "d", 10002, true, false, true⟩]

theorem enforces_parseFirewall_sharedRows :
    ∃ blob, encodeBlob sharedRows = some blob ∧ Enforces sharedRows (parseFirewall blob) ∧
      ∀ s : Firewall, ((s.setFirewall (parseFirewall blob)).setTransport
        transportCellular).policyBlocks 10001 = true := by
  have henforces : Enforces sharedRows (parseFirewall ((encodeBlob sharedRows).getD [])) := by
    refine (enforces_parseFirewall_iff rfl).mpr ⟨?_, ?_⟩ <;> unfold LastRowDenies <;> decide
  refine ⟨_, rfl, henforces, fun s => ?_⟩
  exact (@Enforces.policyBlocks _ _ henforces s transportCellular 10001 (by decide)).mpr
    ⟨sharingRow, by decide, rfl, rfl⟩

/-- The row that denies Wi-Fi is overwritten by the one after it. -/
theorem sharedUid_overwrites_rule :
    ∃ blob, encodeBlob [deniedRow, sharingRow] = some blob ∧
      ([deniedRow, sharingRow].map AppRule.packageName).Nodup ∧
      ¬ Enforces [deniedRow, sharingRow] (parseFirewall blob) := by
  refine ⟨_, rfl, by decide, ?_⟩
  intro h
  obtain ⟨p, hp, hdeny⟩ := (h.wifi 10001).mpr ⟨deniedRow, List.mem_cons_self .., rfl, rfl⟩
  rw [@parseFirewall_encodeBlob [deniedRow, sharingRow] _ rfl] at hp
  rw [lookup_insertRows] at hp
  obtain rfl : sharingRow.policy = p := Option.some.inj hp
  exact absurd hdeny (by decide)

end Enforcement

end Adwarden.Core
