/-
# The names of module slots

A slot of a native module is the digest of a domain tag and the arguments of the quantity it keeps.
The tags are not terminated, and some are prefixes of others (`cand`, `candlen`, `candi`; `del`,
`delTot`, `delRate`): what separates their names is the length, since the arguments of a tag have a
fixed width. Where two names have the same length the tags have it too, and differ. So the names of a
module are different, and its slots collide only where the hash function does.
-/
import Dew.OrderbookSpec
import Dew.StakingSpec

open Bytes

namespace Dew

theorem u64BE_injective : Function.Injective u64BE := by
  intro i j h
  exact BitVec.eq_of_toNat_eq (beBytes_injective i.isLt j.isLt h)

@[simp] theorem length_u64BE (i : U64) : (u64BE i).length = 8 :=
  length_beBytes 8 _

/-- Different tags of one length give different names. -/
theorem tags_eq_of_append_eq {t t' a a' : Bytes} (hlen : t.length = t'.length)
    (h : t ++ a = t' ++ a') : t = t' :=
  (List.append_inj h hlen).1

theorem addresses_of_append_eq {t : Bytes} {v d v' d' : Address}
    (h : t ++ v.bytes ++ d.bytes = t ++ v'.bytes ++ d'.bytes) : v = v' ∧ d = d' := by
  obtain ⟨hfirst, hd⟩ := List.append_inj h (by simp)
  exact ⟨Address.bytes_injective (List.append_cancel_left hfirst), Address.bytes_injective hd⟩

/-! ## Staking -/

namespace Staking.Key

/-- The length of the name of a word. -/
def width : Key → ℕ
  | self _ | cand _ | comm _ => 37
  | jailed _ | delTot _ | rewIdx _ => 39
  | len => 20
  | idx _ => 26
  | unbondAmt _ => 42
  | unbondAt _ => 41
  | del _ _ => 56
  | delUnbondAmt _ _ => 65
  | delUnbondAt _ _ => 64
  | delRate _ => 40
  | rewDebt _ _ | rewPend _ _ => 60

theorem length_name (k : Key) : k.name.length = k.width := by
  cases k <;> simp [name, width, ascii]

theorem name_injective : Function.Injective name := by
  intro k k' h
  have hwidth : k.width = k'.width := by
    rw [← length_name, ← length_name, h]
  -- names of different lengths are done, the rest have the same constructor or tags of one length
  cases k <;> cases k' <;> try (cases hwidth; done)
  case len.len => rfl
  case idx.idx => exact congrArg idx (u64BE_injective (List.append_cancel_left h))
  case self.self => exact congrArg self (Address.bytes_injective (List.append_cancel_left h))
  case jailed.jailed => exact congrArg jailed (Address.bytes_injective (List.append_cancel_left h))
  case cand.cand => exact congrArg cand (Address.bytes_injective (List.append_cancel_left h))
  case unbondAmt.unbondAmt =>
    exact congrArg unbondAmt (Address.bytes_injective (List.append_cancel_left h))
  case unbondAt.unbondAt =>
    exact congrArg unbondAt (Address.bytes_injective (List.append_cancel_left h))
  case delTot.delTot => exact congrArg delTot (Address.bytes_injective (List.append_cancel_left h))
  case comm.comm => exact congrArg comm (Address.bytes_injective (List.append_cancel_left h))
  case delRate.delRate =>
    exact congrArg delRate (Address.bytes_injective (List.append_cancel_left h))
  case rewIdx.rewIdx => exact congrArg rewIdx (Address.bytes_injective (List.append_cancel_left h))
  case del.del =>
    obtain ⟨rfl, rfl⟩ := addresses_of_append_eq h
    rfl
  case delUnbondAmt.delUnbondAmt =>
    obtain ⟨rfl, rfl⟩ := addresses_of_append_eq h
    rfl
  case delUnbondAt.delUnbondAt =>
    obtain ⟨rfl, rfl⟩ := addresses_of_append_eq h
    rfl
  case rewDebt.rewDebt =>
    obtain ⟨rfl, rfl⟩ := addresses_of_append_eq h
    rfl
  case rewPend.rewPend =>
    obtain ⟨rfl, rfl⟩ := addresses_of_append_eq h
    rfl
  case rewDebt.rewPend | rewPend.rewDebt =>
    rw [name, name, List.append_assoc, List.append_assoc] at h
    have htags := tags_eq_of_append_eq (by simp [ascii]) h
    simp [ascii] at htags
  all_goals
    have htags := tags_eq_of_append_eq (by simp [ascii]) h
    simp [ascii] at htags

end Staking.Key

/-! ## Orderbook -/

namespace Orderbook.Key

/-- The length of the name of a word, which no two kinds of words share. -/
def width : Key → ℕ
  | nextID => 16
  | order _ _ => 24
  | openCount _ => 39
  | escrowQ _ => 37
  | escrowB _ _ => 57
  | openLen _ _ => 38
  | openAt _ _ _ => 45

theorem length_name (k : Key) : k.name.length = k.width := by
  cases k <;> simp [name, width, ascii]

theorem name_injective : Function.Injective name := by
  intro k k' h
  have hwidth : k.width = k'.width := by
    rw [← length_name, ← length_name, h]
  cases k <;> cases k' <;> try (cases hwidth; done)
  case nextID.nextID => rfl
  case openCount.openCount =>
    exact congrArg openCount (Address.bytes_injective (List.append_cancel_left h))
  case escrowQ.escrowQ =>
    exact congrArg escrowQ (Address.bytes_injective (List.append_cancel_left h))
  case escrowB.escrowB =>
    obtain ⟨rfl, rfl⟩ := addresses_of_append_eq h
    rfl
  case order.order id field id' field' =>
    obtain ⟨hid, hfield⟩ := List.append_inj h (by simp)
    obtain rfl := u64BE_injective (List.append_cancel_left hid)
    obtain rfl := List.singleton_injective hfield
    rfl
  case openLen.openLen token side token' side' =>
    obtain ⟨htoken, hside⟩ := List.append_inj h (by simp)
    obtain rfl := Address.bytes_injective (List.append_cancel_left htoken)
    obtain rfl := UInt8.ofBitVec.inj (List.singleton_injective hside)
    rfl
  case openAt.openAt token side idx token' side' idx' =>
    obtain ⟨hfirst, hidx⟩ := List.append_inj h (by simp)
    obtain ⟨htoken, hside⟩ := List.append_inj hfirst (by simp)
    obtain rfl := u64BE_injective hidx
    obtain rfl := Address.bytes_injective (List.append_cancel_left htoken)
    obtain rfl := UInt8.ofBitVec.inj (List.singleton_injective hside)
    rfl

end Orderbook.Key

/-! ## Slots -/

/-- Slots of different names differ wherever the digests of the names do. -/
theorem injOn_slot_of_names {κ : Type} {slot : κ → Hash} {name : κ → Bytes}
    (hslot : ∀ k, slot k = keccak256Hash (name k)) (hname : Function.Injective name) {K : Set κ}
    (hinj : Set.InjOn keccak256Hash (name '' K)) : Set.InjOn slot K := by
  intro k hk k' hk' h
  rw [hslot, hslot] at h
  exact hname (hinj (Set.mem_image_of_mem name hk) (Set.mem_image_of_mem name hk') h)

/-- The strings that the slot functions of a module hash are different for different functions or
arguments, so slots are different wherever the digests are. -/
theorem slots_separated :
    ((∀ k : Staking.Key, k.slot = keccak256Hash k.name) ∧
      (∀ k k' : Staking.Key, k.name = k'.name → k = k') ∧
      ∀ K : Set Staking.Key, Set.InjOn keccak256Hash (Staking.Key.name '' K) →
        Set.InjOn Staking.Key.slot K) ∧
    (∀ k : Orderbook.Key, k.slot = keccak256Hash k.name) ∧
      (∀ k k' : Orderbook.Key, k.name = k'.name → k = k') ∧
      ∀ K : Set Orderbook.Key, Set.InjOn keccak256Hash (Orderbook.Key.name '' K) →
        Set.InjOn Orderbook.Key.slot K := by
  refine ⟨⟨Staking.Key.slot_eq, ?_, ?_⟩, Orderbook.Key.slot_eq, ?_, ?_⟩
  · exact fun k k' h => Staking.Key.name_injective h
  · exact fun K hK => injOn_slot_of_names Staking.Key.slot_eq Staking.Key.name_injective hK
  · exact fun k k' h => Orderbook.Key.name_injective h
  · exact fun K hK => injOn_slot_of_names Orderbook.Key.slot_eq Orderbook.Key.name_injective hK

end Dew
