/-
`MemoryPool.hpp`: where the slots of a block lie. The stride `kSlotSize` and the alignment `kAlign`
of a block are each the larger of a number of `T` and one of `FreeNode`, so a stride may take the
second slot off the alignment that the first one has. Sizes and the product that `grow` asks for are
words; an address is a natural number, as no block reaches past the end of the address space.
-/
import OrderBookEngine.Lib.Pow2
import OrderBookEngine.Pool.MemoryPool
import Mathlib.Order.CompletePartialOrder
import Mathlib.Order.Interval.Set.Disjoint

namespace Obe.MemoryPool

/-- `sizeof` and `alignof` of a type: an array of it has every element aligned, and no two elements
at one address. -/
structure CppType where
  sizeof : UInt64
  alignof : UInt64
  alignPow : ∃ k, alignof.toNat = 2 ^ k
  alignDvd : alignof.toNat ∣ sizeof.toNat
  sizePos : 0 < sizeof.toNat

/-- A link of the free list: one pointer. -/
def freeNode : CppType := ⟨8, 8, ⟨3, rfl⟩, by decide, by decide⟩

/-- `Order`: three links, two ids, the side, the price, two quantities and the sequence number. -/
def orderType : CppType := ⟨72, 8, ⟨3, rfl⟩, by decide, by decide⟩

def kSlotSize (T : CppType) : UInt64 := if T.sizeof > freeNode.sizeof then T.sizeof else freeNode.sizeof

def kAlign (T : CppType) : UInt64 := if T.alignof > freeNode.alignof then T.alignof else freeNode.alignof

/-- The bytes that `grow` asks for. -/
def blockBytes (T : CppType) (n : UInt64) : UInt64 := n * kSlotSize T

/-- The address of slot `i` of a block at `base`. -/
def slotAddr (T : CppType) (base : Nat) (i : UInt64) : Nat := base + (i * kSlotSize T).toNat

/-- The bytes of an object of type `U` in slot `i`. -/
def objectBytes (T : CppType) (base : Nat) (i : UInt64) (U : CppType) : Set Nat :=
  Set.Ico (slotAddr T base i) (slotAddr T base i + U.sizeof.toNat)

/-- Every slot of a block of `n` can hold a `T` or a free node, whatever the other slots hold. -/
structure SlotsSound (T : CppType) (base : Nat) (n : UInt64) : Prop where
  aligned : ∀ i < n, ∀ U ∈ [T, freeNode], U.alignof.toNat ∣ slotAddr T base i
  apart : ∀ i < n, ∀ j < n, i ≠ j → ∀ U ∈ [T, freeNode], ∀ V ∈ [T, freeNode],
    Disjoint (objectBytes T base i U) (objectBytes T base j V)
  inside : ∀ i < n, ∀ U ∈ [T, freeNode], objectBytes T base i U ⊆ Set.Ico base (base + (blockBytes T n).toNat)

variable {T U : CppType} {base : Nat} {n i j : UInt64}

/-! ## The two maxima -/

theorem kSlotSize_toNat (T : CppType) : (kSlotSize T).toNat = max T.sizeof.toNat freeNode.sizeof.toNat := by
  unfold kSlotSize
  split
  · rename_i h
    exact (max_eq_left (Nat.le_of_lt h)).symm
  · rename_i h
    exact (max_eq_right (Nat.not_lt.1 h)).symm

theorem sizeof_le (hU : U ∈ [T, freeNode]) : U.sizeof.toNat ≤ (kSlotSize T).toNat := by
  rw [kSlotSize_toNat]
  rcases List.mem_pair.1 hU with rfl | rfl
  · exact le_max_left ..
  · exact le_max_right ..

/-- Of two alignments the smaller divides the larger. -/
theorem CppType.alignof_dvd (T U : CppType) (h : T.alignof.toNat ≤ U.alignof.toNat) :
    T.alignof.toNat ∣ U.alignof.toNat := by
  obtain ⟨a, ha⟩ := T.alignPow
  obtain ⟨b, hb⟩ := U.alignPow
  rw [ha, hb] at h ⊢
  exact Pow2.two_pow_dvd_of_le h

theorem alignof_dvd_kAlign (hU : U ∈ [T, freeNode]) : U.alignof.toNat ∣ (kAlign T).toNat := by
  unfold kAlign
  split
  · rename_i h
    rcases List.mem_pair.1 hU with rfl | rfl
    · exact dvd_rfl
    · exact CppType.alignof_dvd _ _ (Nat.le_of_lt h)
  · rename_i h
    rcases List.mem_pair.1 hU with rfl | rfl
    · exact CppType.alignof_dvd _ _ (Nat.not_lt.1 h)
    · exact dvd_rfl

/-- The stride keeps every alignment when `T` is no larger than a free node or a whole number of
them. -/
theorem alignof_dvd_kSlotSize (h : T.sizeof ≤ freeNode.sizeof ∨ freeNode.alignof.toNat ∣ T.sizeof.toNat)
    (hU : U ∈ [T, freeNode]) : U.alignof.toNat ∣ (kSlotSize T).toNat := by
  by_cases hs : T.sizeof ≤ freeNode.sizeof
  · have hk : kSlotSize T = freeNode.sizeof := by
      unfold kSlotSize
      rw [if_neg (UInt64.not_lt.2 hs)]
    rw [hk]
    rcases List.mem_pair.1 hU with rfl | rfl
    · have hle : U.alignof.toNat ≤ freeNode.alignof.toNat :=
        le_trans (Nat.le_of_dvd U.sizePos U.alignDvd) hs
      exact U.alignof_dvd freeNode hle
    · exact freeNode.alignDvd
  · have hk : kSlotSize T = T.sizeof := by
      unfold kSlotSize
      rw [if_pos (UInt64.not_le.1 hs)]
    rw [hk]
    rcases List.mem_pair.1 hU with rfl | rfl
    · exact U.alignDvd
    · exact h.resolve_left hs

/-! ## The slots of a block -/

/-- In a block whose bytes do not wrap, a slot lies where its number says. -/
theorem offset_toNat (hfit : n.toNat * (kSlotSize T).toNat < 2 ^ 64) (hi : i ≤ n) :
    (i * kSlotSize T).toNat = i.toNat * (kSlotSize T).toNat := by
  rw [UInt64.toNat_mul]
  exact Nat.mod_eq_of_lt (lt_of_le_of_lt (Nat.mul_le_mul_right _ hi) hfit)

theorem slots_apart_lt (hfit : n.toNat * (kSlotSize T).toNat < 2 ^ 64) (hi : i < n) (hj : j < n) (hlt : i < j)
    {V : CppType} (hU : U ∈ [T, freeNode]) : Disjoint (objectBytes T base i U) (objectBytes T base j V) := by
  have hsize := sizeof_le hU
  have hstep : (i.toNat + 1) * (kSlotSize T).toNat ≤ j.toNat * (kSlotSize T).toNat := Nat.mul_le_mul_right _ hlt
  rw [Nat.succ_mul] at hstep
  unfold objectBytes slotAddr
  rw [offset_toNat hfit (Nat.le_of_lt hi), offset_toNat hfit (Nat.le_of_lt hj), Set.Ico_disjoint_Ico]
  exact le_trans (min_le_left ..) (le_trans (by omega) (le_max_right ..))

theorem slots_apart (hfit : n.toNat * (kSlotSize T).toNat < 2 ^ 64) (hi : i < n) (hj : j < n) (hij : i ≠ j)
    {V : CppType} (hU : U ∈ [T, freeNode]) (hV : V ∈ [T, freeNode]) :
    Disjoint (objectBytes T base i U) (objectBytes T base j V) := by
  rcases lt_or_gt_of_ne (show i.toNat ≠ j.toNat from fun he => hij (UInt64.toNat_inj.1 he)) with hlt | hlt
  · exact slots_apart_lt hfit hi hj hlt hU
  · exact (slots_apart_lt hfit hj hi hlt hV).symm

theorem exists_sizeof_eq (T : CppType) : ∃ U ∈ [T, freeNode], U.sizeof = kSlotSize T := by
  unfold kSlotSize
  split
  · exact ⟨T, by simp, rfl⟩
  · exact ⟨freeNode, by simp, rfl⟩

/-- The bytes asked for a block of `n` slots hold an object of type `U` in slot `i`. -/
def Room (T : CppType) (n i : UInt64) (U : CppType) : Prop :=
  (i * kSlotSize T).toNat + U.sizeof.toNat ≤ (blockBytes T n).toNat

instance (T : CppType) (n i : UInt64) (U : CppType) : Decidable (Room T n i U) := Nat.decLe ..

theorem room_iff (base : Nat) :
    Room T n i U ↔ objectBytes T base i U ⊆ Set.Ico base (base + (blockBytes T n).toNat) := by
  have hsize := U.sizePos
  unfold Room objectBytes slotAddr
  rw [Set.Ico_subset_Ico_iff (by omega)]
  omega

/-- In a block whose bytes do not wrap every slot has room. -/
theorem Room.of (hfit : n.toNat * (kSlotSize T).toNat < 2 ^ 64) (hi : i < n) (hU : U ∈ [T, freeNode]) :
    Room T n i U := by
  have hsize := sizeof_le hU
  have hstep : (i.toNat + 1) * (kSlotSize T).toNat ≤ n.toNat * (kSlotSize T).toNat := Nat.mul_le_mul_right _ hi
  rw [Nat.succ_mul] at hstep
  unfold Room blockBytes
  rw [offset_toNat hfit (Nat.le_of_lt hi), offset_toNat hfit (Nat.le_refl n.toNat)]
  omega

/-- Where the bytes asked for wrap, the last slot whose place does not wrap reaches past them. -/
theorem Room.fits (h : ∀ i < n, ∀ U ∈ [T, freeNode], Room T n i U) : n.toNat * (kSlotSize T).toNat < 2 ^ 64 := by
  obtain ⟨U, hU, hsize⟩ := exists_sizeof_eq T
  have hpos : 0 < (kSlotSize T).toNat := hsize ▸ U.sizePos
  by_contra hwrap
  have hdiv := Nat.div_add_mod' (2 ^ 64 - 1) (kSlotSize T).toNat
  have hmod := Nat.mod_lt (2 ^ 64 - 1) hpos
  generalize (2 ^ 64 - 1) / (kSlotSize T).toNat = last at hdiv
  have hlast : last < n.toNat := by
    by_contra hn
    have := Nat.mul_le_mul_right (kSlotSize T).toNat (Nat.not_lt.1 hn)
    omega
  have hword : (UInt64.ofNat last).toNat = last := UInt64.toNat_ofNat_of_lt' (lt_trans hlast n.toNat_lt)
  have hroom := h (UInt64.ofNat last) (by rw [UInt64.lt_iff_toNat_lt, hword]; exact hlast) U hU
  have hbytes := (blockBytes T n).toNat_lt
  unfold Room at hroom
  rw [hsize, UInt64.toNat_mul, hword, Nat.mod_eq_of_lt (by omega)] at hroom
  omega

/-- Blocks with room for their slots and a stride that keeps the alignment are sound. -/
theorem SlotsSound.of (hbase : (kAlign T).toNat ∣ base) (hfit : n.toNat * (kSlotSize T).toNat < 2 ^ 64)
    (h : n ≤ 1 ∨ T.sizeof ≤ freeNode.sizeof ∨ freeNode.alignof.toNat ∣ T.sizeof.toNat) : SlotsSound T base n where
  aligned i hi U hU := by
    have hstart : U.alignof.toNat ∣ base := dvd_trans (alignof_dvd_kAlign hU) hbase
    unfold slotAddr
    rw [offset_toNat hfit (Nat.le_of_lt hi)]
    refine Nat.dvd_add hstart ?_
    rcases h with h | h
    · have h0 : i.toNat = 0 := Nat.lt_one_iff.1 (lt_of_lt_of_le hi h)
      rw [h0, Nat.zero_mul]
      exact Nat.dvd_zero _
    · exact Nat.dvd_mul_left_of_dvd (alignof_dvd_kSlotSize h hU) _
  apart i hi j hj hij U hU V hV := slots_apart hfit hi hj hij hU hV
  inside i hi U hU := (room_iff base).1 (.of hfit hi hU)

theorem SlotsSound.fits (h : SlotsSound T base n) : n.toNat * (kSlotSize T).toNat < 2 ^ 64 :=
  Room.fits fun i hi U hU => (room_iff base).2 (h.inside i hi U hU)

/-- The second slot has the alignment of a free node only when the stride keeps it. -/
theorem SlotsSound.stride (hbase : (kAlign T).toNat ∣ base) (h : SlotsSound T base n) :
    n ≤ 1 ∨ T.sizeof ≤ freeNode.sizeof ∨ freeNode.alignof.toNat ∣ T.sizeof.toNat := by
  by_cases hn : n ≤ 1
  · exact .inl hn
  · refine .inr ((em (T.sizeof ≤ freeNode.sizeof)).imp_right fun hs => ?_)
    have hk : kSlotSize T = T.sizeof := by
      unfold kSlotSize
      rw [if_pos (UInt64.not_le.1 hs)]
    have hstart : freeNode.alignof.toNat ∣ base := dvd_trans (alignof_dvd_kAlign (by simp)) hbase
    have hsecond := h.aligned 1 (UInt64.not_le.1 hn) freeNode (by simp)
    unfold slotAddr at hsecond
    rw [UInt64.one_mul, hk] at hsecond
    exact (Nat.dvd_add_right hstart).1 hsecond

/-- A block is sound exactly when its bytes can be asked for and, beyond one slot, `T` is no larger
than a free node or a whole number of them. -/
theorem slotsSound_iff (T : CppType) (base : Nat) (hbase : (kAlign T).toNat ∣ base) (n : UInt64) :
    SlotsSound T base n ↔ n.toNat * max T.sizeof.toNat freeNode.sizeof.toNat < 2 ^ 64 ∧
      (n ≤ 1 ∨ T.sizeof ≤ freeNode.sizeof ∨ freeNode.alignof.toNat ∣ T.sizeof.toNat) := by
  rw [← kSlotSize_toNat]
  constructor
  · intro h
    exact ⟨h.fits, h.stride hbase⟩
  · rintro ⟨hfit, h⟩
    exact .of hbase hfit h

theorem slotsSound_orders : SlotsSound orderType 4096 1024 :=
  (slotsSound_iff orderType 4096 (by decide) 1024).2 ⟨by decide, .inr (.inr (by decide))⟩

/-- A type of twelve bytes, such as three 32-bit integers: the second slot of a block is no place for
a free node. -/
theorem twelve_bytes_unsound : ∃ T : CppType, T.sizeof = 12 ∧ T.alignof = 4 ∧ (kAlign T).toNat ∣ 4096 ∧
    ¬ SlotsSound T 4096 2 := by
  refine ⟨⟨12, 4, ⟨2, rfl⟩, by decide, by decide⟩, rfl, rfl, by decide, fun h => ?_⟩
  exact absurd (h.aligned 1 (by decide) freeNode (by simp)) (by decide)

end Obe.MemoryPool
