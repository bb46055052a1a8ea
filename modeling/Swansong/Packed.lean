import Swansong.Word
import Swansong.Lib.Packing

/-!
# The words as `u64`s

A shard's and a node's `state` is an `AtomicU64`.  Its groups of bits are the fields of
`ShardWord` and `NodeWord`, and the masks and units of the source work on them as the
records say, as long as the counts fit their fields.

## Main definitions

* `fields` — a word from its groups of bits.
* `ShardWord.pack`, `NodeWord.pack` — the word of a record.
* `ShardWord.unpack`, `NodeWord.unpack` — the record, as the source reads its fields.
* `ShardWord.Fits`, `NodeWord.Fits` — the counts fit their fields.
-/

namespace Swansong

open Packing

abbrev U64 := BitVec 64

/-- `LOCAL_ONE`, and `LOCAL_MASK`. -/
def localOne : U64 := 1
def localMask : U64 := 0xFFFFFFFF

/-- `KIDS_ONE`, and the bits it counts in. -/
def kidsOne : U64 := 1 <<< 32
def kidsMask : U64 := 0x3FFFFFFF

/-- `STOPPED` and `ARRIVED`. -/
def stoppedBit : U64 := 1 <<< 62
def arrivedBit : U64 := 1 <<< 63

/-- `SHARDS_MASK`, `PARENT_SHARD_SHIFT` and `PARENT_SHARD_MASK`. -/
def shardsMask : U64 := 0xFFFFFFFF
def parentShardShift : ℕ := 32
def parentShardMask : U64 := 0xFFFF

/-- The unit as it is added to a word. -/
def CountUnit.bits : CountUnit → U64
  | .localOne => Swansong.localOne
  | .kidsOne => Swansong.kidsOne

/-! ## The layout -/

/-- A word from its groups of bits, the highest first.  `high` is a shard's count of
children, or the index of the parent shard that a node arrived at. -/
def fields (arrived stopped : Bool) (high : BitVec 30) (low : BitVec 32) : U64 :=
  BitVec.ofBool arrived ++ BitVec.ofBool stopped ++ high ++ low

section Fields
variable {a a' s s' : Bool} {k k' : BitVec 30} {l l' : BitVec 32}

theorem fields_inj : fields a s k l = fields a' s' k' l' ↔ a = a' ∧ s = s' ∧ k = k' ∧ l = l' := by
  rw [fields, fields, append_inj, append_inj, append_inj, BitVec.ofBool_eq_iff_eq,
    BitVec.ofBool_eq_iff_eq, and_assoc, and_assoc]

theorem fields_or : fields a s k l ||| fields a' s' k' l' =
    fields (a || a') (s || s') (k ||| k') (l ||| l') := by
  rw [fields, fields, fields, BitVec.or_append, BitVec.or_append, BitVec.or_append,
    BitVec.ofBool_or_ofBool, BitVec.ofBool_or_ofBool]

theorem fields_and : fields a s k l &&& fields a' s' k' l' =
    fields (a && a') (s && s') (k &&& k') (l &&& l') := by
  rw [fields, fields, fields, BitVec.and_append, BitVec.and_append, BitVec.and_append,
    BitVec.ofBool_and_ofBool, BitVec.ofBool_and_ofBool]

theorem fields_not : ~~~fields a s k l = fields (!a) (!s) (~~~k) (~~~l) := by
  rw [fields, fields, BitVec.not_append, BitVec.not_append, BitVec.not_append, BitVec.not_ofBool,
    BitVec.not_ofBool]

/-- Counts add up field by field while they fit. -/
theorem fields_add (hk : k.toNat + k'.toNat < 2 ^ 30) (hl : l.toNat + l'.toNat < 2 ^ 32) :
    fields a s k l + fields false false k' l' = fields a s (k + k') (l + l') := by
  rw [fields, fields, fields, append_add_append hl, append_add_append hk,
    append_add_append (by cases s <;> decide)]
  simp

theorem toNat_fields : (fields a s k l).toNat =
    2 ^ 63 * a.toNat + 2 ^ 62 * s.toNat + 2 ^ 32 * k.toNat + l.toNat := by
  rw [fields, toNat_append, toNat_append, toNat_append, BitVec.toNat_ofBool, BitVec.toNat_ofBool]
  omega

/-- The low field, as its masks read it. -/
theorem low_fields : (fields a s k l &&& 0xFFFFFFFF).toNat = l.toNat := by
  have hl := l.isLt
  rw [BitVec.toNat_and, toNat_fields]
  show _ &&& (2 ^ 32 - 1) = _
  rw [Nat.and_two_pow_sub_one_eq_mod]
  omega

/-- The high field, as its shift and a mask read it. -/
theorem high_fields {n : ℕ} (hn : n ≤ 30) (hk : k.toNat < 2 ^ n) :
    (fields a s k l >>> 32 &&& BitVec.ofNat 64 (2 ^ n - 1)).toNat = k.toNat := by
  have hl := l.isLt
  have hpow : 2 ^ n ≤ 2 ^ 30 := Nat.pow_le_pow_right (by decide) hn
  rw [BitVec.toNat_and, BitVec.toNat_ushiftRight, toNat_fields, BitVec.toNat_ofNat,
    Nat.mod_eq_of_lt (by omega), Nat.and_two_pow_sub_one_eq_mod, Nat.shiftRight_eq_div_pow]
  have hdiv : (2 ^ 63 * a.toNat + 2 ^ 62 * s.toNat + 2 ^ 32 * k.toNat + l.toNat) / 2 ^ 32 =
      2 ^ n * (2 ^ (30 - n) * (2 * a.toNat + s.toNat)) + k.toNat := by
    rw [← mul_assoc, ← pow_add, Nat.add_sub_cancel' hn]
    omega
  rw [hdiv, Nat.mul_add_mod, Nat.mod_eq_of_lt hk]

theorem stoppedBit_eq : stoppedBit = fields false true 0 0 := by decide
theorem arrivedBit_eq : arrivedBit = fields true false 0 0 := by decide
theorem zero_eq : (0 : U64) = fields false false 0 0 := by decide

theorem and_not_zero {n : ℕ} (x : BitVec n) : x &&& ~~~(0 : BitVec n) = x := by
  rw [BitVec.ofNat_eq_ofNat, BitVec.not_zero, BitVec.and_allOnes]

/-- `& STOPPED != 0`. -/
theorem stoppedBit_fields : fields a s k l &&& stoppedBit ≠ 0 ↔ s = true := by
  rw [stoppedBit_eq, fields_and, zero_eq, ne_eq, fields_inj]
  simp

/-- `& ARRIVED == 0`. -/
theorem arrivedBit_fields : fields a s k l &&& arrivedBit = 0 ↔ a = false := by
  rw [arrivedBit_eq, fields_and, zero_eq, fields_inj]
  simp

/-- `& !STOPPED`. -/
theorem unstopped_fields : fields a s k l &&& ~~~stoppedBit = fields a false k l := by
  rw [stoppedBit_eq, fields_not, fields_and, fields_inj, and_not_zero, and_not_zero]
  simp

/-- `& !(ARRIVED | STOPPED)`. -/
theorem counts_fields : fields a s k l &&& ~~~(arrivedBit ||| stoppedBit) = fields false false k l := by
  rw [stoppedBit_eq, arrivedBit_eq, fields_or, fields_not, fields_and, fields_inj, BitVec.or_self,
    BitVec.or_self, and_not_zero, and_not_zero]
  simp

/-- `| STOPPED`. -/
theorem stop_fields : fields a s k l ||| stoppedBit = fields a true k l := by
  rw [stoppedBit_eq, fields_or, fields_inj]
  simp

end Fields

/-- A word from its flags and counts. -/
def word (arrived stopped : Bool) (high low : ℕ) : U64 :=
  fields arrived stopped (BitVec.ofNat 30 high) (BitVec.ofNat 32 low)

section Word
variable {a s : Bool}

theorem toNat_ofNat_of_lt {n i : ℕ} (hi : i < 2 ^ n) : (BitVec.ofNat n i).toNat = i := by
  rw [BitVec.toNat_ofNat, Nat.mod_eq_of_lt hi]

theorem word_add (k k' l l' : ℕ) (hk : k + k' < 2 ^ 30) (hl : l + l' < 2 ^ 32) :
    word a s (k + k') (l + l') = word a s k l + word false false k' l' := by
  have hk' : (BitVec.ofNat 30 k).toNat + (BitVec.ofNat 30 k').toNat < 2 ^ 30 := by
    rwa [toNat_ofNat_of_lt (by omega), toNat_ofNat_of_lt (by omega)]
  have hl' : (BitVec.ofNat 32 l).toNat + (BitVec.ofNat 32 l').toNat < 2 ^ 32 := by
    rwa [toNat_ofNat_of_lt (by omega), toNat_ofNat_of_lt (by omega)]
  rw [word, word, word, fields_add hk' hl', BitVec.ofNat_add, BitVec.ofNat_add]

theorem word_sub (k k' l l' : ℕ) (hk : k < 2 ^ 30) (hl : l < 2 ^ 32) (hk' : k' ≤ k) (hl' : l' ≤ l) :
    word a s (k - k') (l - l') = word a s k l - word false false k' l' := by
  rw [eq_sub_iff_add_eq, ← word_add _ _ _ _ (by omega) (by omega), Nat.sub_add_cancel hk',
    Nat.sub_add_cancel hl']

theorem one_eq : (1 : U64) = word false false 0 1 := by decide
theorem localOne_eq : localOne = word false false 0 1 := by decide
theorem kidsOne_eq : kidsOne = word false false 1 0 := by decide

theorem word_stopped {k l : ℕ} : decide (word a s k l &&& stoppedBit ≠ 0) = s := by
  rw [word, decide_eq_decide.mpr stoppedBit_fields, Bool.decide_coe]

theorem word_arrived {k l : ℕ} : decide (word a s k l &&& arrivedBit ≠ 0) = a := by
  have hiff : word a s k l &&& arrivedBit ≠ 0 ↔ a = true :=
    (not_congr arrivedBit_fields).trans (Bool.not_eq_false _).to_iff
  rw [decide_eq_decide.mpr hiff, Bool.decide_coe]

end Word

/-! ## Shard words -/

namespace ShardWord

variable {w w' : ShardWord} {u : CountUnit}

/-- The word of a record. -/
def pack (w : ShardWord) : U64 := word w.arrived w.stopped w.kids w.locals

/-- The record of a word. -/
def unpack (x : U64) : ShardWord where
  locals := (x &&& localMask).toNat
  kids := (x >>> 32 &&& kidsMask).toNat
  stopped := x &&& stoppedBit ≠ 0
  arrived := x &&& arrivedBit ≠ 0

/-- The counts fit their fields. -/
def Fits (w : ShardWord) : Prop := w.locals < 2 ^ 32 ∧ w.kids < 2 ^ 30

instance (w : ShardWord) : Decidable w.Fits := inferInstanceAs (Decidable (_ ∧ _))

/-- What a unit counts. -/
def count (w : ShardWord) : CountUnit → ℕ
  | .localOne => w.locals
  | .kidsOne => w.kids

theorem unpack_pack (hw : w.Fits) : unpack w.pack = w := by
  have hlocals : (w.pack &&& localMask).toNat = w.locals :=
    low_fields.trans (toNat_ofNat_of_lt hw.1)
  have hkids : (w.pack >>> 32 &&& kidsMask).toNat = w.kids :=
    (high_fields le_rfl (BitVec.isLt _)).trans (toNat_ofNat_of_lt hw.2)
  rw [unpack, hlocals, hkids, pack, word_stopped, word_arrived]

/-- A compare-and-swap compares records. -/
theorem pack_inj (hw : w.Fits) (hw' : w'.Fits) : w.pack = w'.pack ↔ w = w' := by
  constructor
  · intro h
    rw [← unpack_pack hw, ← unpack_pack hw', h]
  · rintro rfl
    rfl

theorem pack_zero : zero.pack = 0 := by decide
theorem pack_emptied : emptied.pack = arrivedBit ||| stoppedBit := by decide
theorem pack_flushed : flushed.pack = stoppedBit := by decide

theorem pack_stop : w.stop.pack = w.pack ||| stoppedBit := stop_fields.symm

/-- `state + unit` carries into no other field. -/
theorem pack_add (hw : (w.add u).Fits) : (w.add u).pack = w.pack + u.bits := by
  cases u with
  | localOne =>
      rw [CountUnit.bits, localOne_eq]
      exact word_add w.kids 0 w.locals 1 hw.2 hw.1
  | kidsOne =>
      rw [CountUnit.bits, kidsOne_eq]
      exact word_add w.kids 1 w.locals 0 hw.2 hw.1

/-- `state - unit` borrows from no other field. -/
theorem pack_sub (hw : w.Fits) (hpos : 0 < w.count u) : (w.sub u).pack = w.pack - u.bits := by
  cases u with
  | localOne =>
      rw [CountUnit.bits, localOne_eq]
      exact word_sub w.kids 0 w.locals 1 hw.2 hw.1 (Nat.zero_le _) hpos
  | kidsOne =>
      rw [CountUnit.bits, kidsOne_eq]
      exact word_sub w.kids 1 w.locals 0 hw.2 hw.1 hpos (Nat.zero_le _)

/-- `state | ARRIVED | unit`, of a word that counts nothing. -/
theorem pack_arrive (hl : w.locals = 0) (hk : w.kids = 0) :
    (w.arrive u).pack = w.pack ||| arrivedBit ||| u.bits := by
  obtain ⟨locals, kids, stopped, arrived⟩ := w
  obtain rfl : locals = 0 := hl
  obtain rfl : kids = 0 := hk
  cases stopped <;> cases arrived <;> cases u <;> decide

/-- `== ARRIVED | STOPPED`. -/
theorem pack_eq_emptied (hw : w.Fits) : w.pack = arrivedBit ||| stoppedBit ↔ w = emptied := by
  rw [← pack_emptied, pack_inj hw (by decide)]

/-- `& !STOPPED == ARRIVED`. -/
theorem pack_idle (hw : w.Fits) : w.pack &&& ~~~stoppedBit = arrivedBit ↔ w.idle = true := by
  have hidle : ({ w with stopped := false } : ShardWord).pack = (⟨0, 0, false, true⟩ : ShardWord).pack ↔
      ({ w with stopped := false } : ShardWord) = ⟨0, 0, false, true⟩ := pack_inj hw (by decide)
  rw [pack, word, unstopped_fields]
  refine hidle.trans ?_
  simp [idle, and_assoc]

/-- `& !STOPPED == 0`. -/
theorem pack_unstopped (hw : w.Fits) : w.pack &&& ~~~stoppedBit = 0 ↔
    w.locals = 0 ∧ w.kids = 0 ∧ w.arrived = false := by
  have hzero : ({ w with stopped := false } : ShardWord).pack = zero.pack ↔
      ({ w with stopped := false } : ShardWord) = zero := pack_inj hw (by decide)
  rw [pack, word, unstopped_fields]
  refine hzero.trans ?_
  simp [zero]

/-- `& !(ARRIVED | STOPPED) == 0`. -/
theorem pack_counts (hw : w.Fits) : w.pack &&& ~~~(arrivedBit ||| stoppedBit) = 0 ↔
    w.locals = 0 ∧ w.kids = 0 := by
  have hzero : ({ w with stopped := false, arrived := false } : ShardWord).pack = zero.pack ↔
      ({ w with stopped := false, arrived := false } : ShardWord) = zero := pack_inj hw (by decide)
  rw [pack, word, counts_fields]
  refine hzero.trans ?_
  simp [zero]

/-- `& STOPPED != 0` and `& ARRIVED == 0`. -/
theorem pack_stopped : w.pack &&& stoppedBit ≠ 0 ↔ w.stopped = true := stoppedBit_fields
theorem pack_arrived : w.pack &&& arrivedBit = 0 ↔ w.arrived = false := arrivedBit_fields

end ShardWord

/-! ## Node words -/

namespace NodeWord

variable {w w' : NodeWord} {i : ℕ}

/-- The word of a record. -/
def pack (w : NodeWord) : U64 := word w.arrived w.stopped w.parentShard w.shards

/-- The record of a word. -/
def unpack (x : U64) : NodeWord where
  shards := (x &&& shardsMask).toNat
  parentShard := (x >>> parentShardShift &&& parentShardMask).toNat
  stopped := x &&& stoppedBit ≠ 0
  arrived := x &&& arrivedBit ≠ 0

/-- The count and the index fit their fields. -/
def Fits (w : NodeWord) : Prop := w.shards < 2 ^ 32 ∧ w.parentShard < 2 ^ 16

instance (w : NodeWord) : Decidable w.Fits := inferInstanceAs (Decidable (_ ∧ _))

/-- `(state >> PARENT_SHARD_SHIFT) & PARENT_SHARD_MASK`. -/
theorem pack_parentShard (hw : w.Fits) :
    (w.pack >>> parentShardShift &&& parentShardMask).toNat = w.parentShard := by
  have hlt : (BitVec.ofNat 30 w.parentShard).toNat = w.parentShard :=
    toNat_ofNat_of_lt (hw.2.trans (by decide))
  refine (high_fields (n := 16) (by decide) ?_).trans hlt
  rw [hlt]
  exact hw.2

theorem unpack_pack (hw : w.Fits) : unpack w.pack = w := by
  have hshards : (w.pack &&& shardsMask).toNat = w.shards :=
    low_fields.trans (toNat_ofNat_of_lt hw.1)
  have hparent := pack_parentShard hw
  rw [unpack, hshards, hparent, pack, word_stopped, word_arrived]

/-- A compare-and-swap compares records. -/
theorem pack_inj (hw : w.Fits) (hw' : w'.Fits) : w.pack = w'.pack ↔ w = w' := by
  constructor
  · intro h
    rw [← unpack_pack hw, ← unpack_pack hw', h]
  · rintro rfl
    rfl

theorem pack_zero : zero.pack = 0 := by decide

theorem pack_stop : w.stop.pack = w.pack ||| stoppedBit := stop_fields.symm

/-- `state + 1` carries into no other field. -/
theorem pack_add (hw : w.add.Fits) : w.add.pack = w.pack + 1 := by
  rw [one_eq]
  exact word_add w.parentShard 0 w.shards 1 (hw.2.trans (by decide)) hw.1

/-- `state - 1` borrows from no other field. -/
theorem pack_sub (hw : w.Fits) (hpos : 0 < w.shards) : w.sub.pack = w.pack - 1 := by
  rw [one_eq]
  exact word_sub w.parentShard 0 w.shards 1 (hw.2.trans (by decide)) hw.1 (Nat.zero_le _) hpos

/-- `state & STOPPED`. -/
theorem pack_depart : w.depart.pack = w.pack &&& stoppedBit := by
  rw [pack, pack, word, word, stoppedBit_eq, fields_and, fields_inj]
  simp

/-- `state | ARRIVED | index << PARENT_SHARD_SHIFT | 1`, of a word that counts nothing. -/
theorem pack_arriveAt (hs : w.shards = 0) (hp : w.parentShard = 0) (hi : i < 2 ^ 16) :
    (w.arriveAt i).pack =
      w.pack ||| arrivedBit ||| BitVec.ofNat 64 i <<< parentShardShift ||| 1 := by
  obtain ⟨shards, parentShard, stopped, arrived⟩ := w
  obtain rfl : shards = 0 := hs
  obtain rfl : parentShard = 0 := hp
  have hindex : BitVec.ofNat 64 i <<< parentShardShift = word false false i 0 := by
    apply BitVec.eq_of_toNat_eq
    rw [BitVec.toNat_shiftLeft, toNat_ofNat_of_lt (by omega), Nat.shiftLeft_eq, word, toNat_fields,
      toNat_ofNat_of_lt (by omega), parentShardShift, Nat.mod_eq_of_lt (by omega)]
    simp
    omega
  rw [hindex, arrivedBit_eq, one_eq, pack, pack, word, word, word, word, fields_or, fields_or, fields_or,
    fields_inj]
  simp [arriveAt]

/-- `& SHARDS_MASK == 0`. -/
theorem pack_shards (hw : w.Fits) : w.pack &&& shardsMask = 0 ↔ w.shards = 0 := by
  have hshards : (w.pack &&& shardsMask).toNat = w.shards :=
    low_fields.trans (toNat_ofNat_of_lt hw.1)
  rw [← hshards, ← BitVec.toNat_inj]
  rfl

/-- `& !STOPPED == 0`. -/
theorem pack_unstopped (hw : w.Fits) : w.pack &&& ~~~stoppedBit = 0 ↔
    w.shards = 0 ∧ w.parentShard = 0 ∧ w.arrived = false := by
  have hzero : ({ w with stopped := false } : NodeWord).pack = zero.pack ↔
      ({ w with stopped := false } : NodeWord) = zero := pack_inj hw (by decide)
  rw [pack, word, unstopped_fields]
  refine hzero.trans ?_
  simp [zero]

/-- `& STOPPED != 0` and `& ARRIVED == 0`. -/
theorem pack_stopped : w.pack &&& stoppedBit ≠ 0 ↔ w.stopped = true := stoppedBit_fields
theorem pack_arrived : w.pack &&& arrivedBit = 0 ↔ w.arrived = false := arrivedBit_fields

end NodeWord

end Swansong
