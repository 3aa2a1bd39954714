import TaskingFramework.Foundation.SignedDigits
import Mathlib.Logic.Function.Basic
import Mathlib.Data.List.TakeDrop

/-!
# Identifications of tasks and channels

A name is packed into an identification, the first character in the highest byte, and an
identification is written back as a string. A `char` is signed, so that the encoder adds numbers
from -128 to 127: the bytes of an identification are those of a number with signed digits.
-/

namespace TaskingFramework

open Foundation

/-- The bytes behind a pointer. -/
abbrev Memory := ℕ → BitVec 8

variable {bytes : ℕ}

/-- The loop of `getIdentificationFromName` with `rest` characters to go up to `sizeof(IdType)`: the
identification and the number of characters taken. The cast of a `char` to `unsigned int` extends
its sign. -/
def shiftIn (name : Memory) : ℕ → BitVec (8 * bytes) → ℕ → BitVec (8 * bytes) × ℕ
  | 0, id, i => (id, i)
  | rest + 1, id, i =>
      if name i ≠ 0 then
        shiftIn name rest ((id <<< 8) + ((name i).signExtend 32).setWidth (8 * bytes)) (i + 1)
      else (id, i)

def getIdentificationFromName (bytes : ℕ) (name : Option Memory) : BitVec (8 * bytes) :=
  match name with
  | none => 0
  | some name =>
      if name 0 ≠ 0 then
        let (id, i) := shiftIn name bytes 0 0
        id <<< (8 * (bytes - i))
      else 0

/-- The loop of `convertIdentificationToString`, entered with a shift of `rest` bytes. -/
def writeBytes (id : BitVec (8 * bytes)) (length : ℕ) : ℕ → ℕ → Memory → Memory
  | 0, _, buffer => buffer
  | rest + 1, pos, buffer =>
      if pos < length - 1 then
        writeBytes id length rest (pos + 1)
          (Function.update buffer pos (((id >>> (8 * rest)) &&& 0xFF).setWidth 8))
      else buffer

def convertIdentificationToString (id : BitVec (8 * bytes)) (buffer : Option Memory) (length : ℕ) :
    Option Memory :=
  match buffer with
  | none => none
  | some buffer =>
      if length > 1 then
        some (Function.update (writeBytes id length bytes 0 buffer)
          (if length > bytes + 1 then bytes else length - 1) 0)
      else some buffer

/-- `sizeof(TaskId)` and `sizeof(ChannelId)`. -/
abbrev sizeofId : ℕ := 4

/-- The string at the position `i` of a memory. -/
def NullTerminated (mem : Memory) (i : ℕ) : List (BitVec 8) → Prop
  | [] => mem i = 0
  | c :: s => mem i = c ∧ c ≠ 0 ∧ NullTerminated mem (i + 1) s

instance (mem : Memory) : (i : ℕ) → (s : List (BitVec 8)) → Decidable (NullTerminated mem i s)
  | i, [] => inferInstanceAs (Decidable (mem i = 0))
  | i, c :: s =>
      have := instDecidableNullTerminated mem (i + 1) s
      inferInstanceAs (Decidable (mem i = c ∧ c ≠ 0 ∧ NullTerminated mem (i + 1) s))

variable {name buffer : Memory} {s : List (BitVec 8)}

private theorem nullTerminated_iff {i : ℕ} : NullTerminated name i s ↔
    (∀ c ∈ s, c ≠ 0) ∧ ∀ j ≤ s.length, name (i + j) = s.getD j 0 := by
  induction s generalizing i with
  | nil =>
      constructor
      · intro h
        refine ⟨by simp, ?_⟩
        intro j hj
        obtain rfl : j = 0 := by simpa using hj
        exact h
      · intro h
        exact h.2 0 (Nat.zero_le _)
  | cons c s ih =>
      constructor
      · rintro ⟨hc, hne, hs⟩
        obtain ⟨hnz, hat⟩ := ih.mp hs
        refine ⟨List.forall_mem_cons.mpr ⟨hne, hnz⟩, ?_⟩
        intro j hj
        cases j with
        | zero => exact hc
        | succ j =>
            rw [show i + (j + 1) = i + 1 + j by omega, hat j (by simpa using hj), List.getD_cons_succ]
      · rintro ⟨hnz, hat⟩
        refine ⟨hat 0 (Nat.zero_le _), hnz c List.mem_cons_self, ih.mpr ⟨?_, ?_⟩⟩
        · exact fun x hx => hnz x (List.mem_cons_of_mem _ hx)
        · intro j hj
          rw [show i + 1 + j = i + (j + 1) by omega, hat (j + 1) (by simpa using hj),
            List.getD_cons_succ]

/-- The number a list of signed characters stands for. -/
def signedValue (s : List (BitVec 8)) : ℤ :=
  horner 256 (s.map BitVec.toInt)

private theorem signedValue_append (s t : List (BitVec 8)) :
    signedValue (s ++ t) = 256 ^ t.length * signedValue s + signedValue t := by
  rw [signedValue, List.map_append, horner_append, List.length_map, signedValue, signedValue]

private theorem signedValue_snoc (s : List (BitVec 8)) (c : BitVec 8) :
    signedValue (s ++ [c]) = 256 * signedValue s + c.toInt := by
  rw [signedValue, List.map_append, List.map_singleton, horner_snoc, signedValue]

private theorem signedValue_zeros (n : ℕ) : signedValue (List.replicate n 0) = 0 := by
  rw [signedValue, List.map_replicate]
  exact horner_replicate_zero n

private theorem abs_toInt_lt (s : List (BitVec 8)) : ∀ e ∈ s.map BitVec.toInt, |e| < 256 := by
  intro e he
  obtain ⟨c, -, rfl⟩ := List.mem_map.mp he
  have hlow := BitVec.le_toInt c
  have hhigh := BitVec.toInt_lt (x := c)
  rw [abs_lt]
  constructor <;> omega

private theorem signedValue_append_div (s t : List (BitVec 8)) :
    signedValue (s ++ t) / 256 ^ t.length =
      signedValue s + if signedValue t < 0 then -1 else 0 := by
  have h : horner 256 (s.map BitVec.toInt ++ t.map BitVec.toInt) / 256 ^ (t.map BitVec.toInt).length =
      _ := horner_append_div (abs_toInt_lt t)
  rwa [← List.map_append, List.length_map] at h

/-- The characters an identification has room for, with zeros behind a short name. -/
def padded (n : ℕ) (s : List (BitVec 8)) : List (BitVec 8) :=
  s.take n ++ List.replicate (n - s.length) 0

private theorem padded_nil (n : ℕ) : padded n [] = List.replicate n 0 := by
  rw [padded, List.take_nil, List.nil_append, List.length_nil, Nat.sub_zero]

@[simp] theorem length_padded (n : ℕ) (s : List (BitVec 8)) : (padded n s).length = n := by
  rw [padded, List.length_append, List.length_take, List.length_replicate]
  omega

private theorem getElem?_padded {n j : ℕ} (hj : j < n) (s : List (BitVec 8)) :
    (padded n s)[j]? = some (s.getD j 0) := by
  rw [padded, List.getElem?_append, List.length_take, List.getD_eq_getElem?_getD]
  by_cases hs : j < s.length
  · rw [if_pos (by omega), List.getElem?_take_of_lt hj, List.getElem?_eq_getElem hs]
    rfl
  · rw [if_neg (by omega), List.getElem?_replicate, if_pos (by omega),
      List.getElem?_eq_none (by omega)]
    rfl

private theorem drop_padded {n k : ℕ} (s : List (BitVec 8)) :
    (padded n s).drop k = padded (n - k) (s.drop k) := by
  apply List.ext_getElem?
  intro j
  rw [List.getElem?_drop]
  by_cases hj : k + j < n
  · rw [getElem?_padded hj, getElem?_padded (by omega), List.getD_eq_getElem?_getD,
      List.getD_eq_getElem?_getD, List.getElem?_drop]
  · rw [List.getElem?_eq_none (by rw [length_padded]; omega),
      List.getElem?_eq_none (by rw [length_padded]; omega)]

private theorem signedValue_padded_neg {n : ℕ} (hs : ∀ c ∈ s, c ≠ 0) :
    signedValue (padded n s) < 0 ↔ 0 < n ∧ (s.getD 0 0).msb = true := by
  cases n with
  | zero => simp [signedValue, padded]
  | succ n =>
      cases s with
      | nil =>
          rw [padded_nil, signedValue_zeros]
          simp
      | cons c s =>
          have hc : c.toInt ≠ 0 := by
            intro h
            exact hs c List.mem_cons_self (BitVec.eq_of_toInt_eq h)
          have hcons : padded (n + 1) (c :: s) = c :: padded n s := by simp [padded]
          rw [hcons, signedValue, List.map_cons, horner_cons_neg_iff hc (abs_toInt_lt _),
            List.getD_cons_zero, BitVec.msb_eq_toInt]
          simp

private theorem ofInt_shiftLeft (w k : ℕ) (v : ℤ) :
    BitVec.ofInt w v <<< (8 * k) = BitVec.ofInt w (256 ^ k * v) := by
  have htwo : BitVec.twoPow w (8 * k) = BitVec.ofInt w (256 ^ k) := by
    apply BitVec.eq_of_toNat_eq
    rw [BitVec.toNat_twoPow, BitVec.toNat_ofInt, pow_mul]
    norm_cast
  rw [BitVec.shiftLeft_eq_mul_twoPow, htwo, ← BitVec.ofInt_mul, mul_comm]

private theorem setWidth_signExtend (hb : bytes ≤ 4) (c : BitVec 8) :
    (c.signExtend 32).setWidth (8 * bytes) = BitVec.ofInt (8 * bytes) c.toInt := by
  apply BitVec.eq_of_toNat_eq
  have hdvd : ((2 ^ (8 * bytes) : ℕ) : ℤ) ∣ ((2 ^ 32 : ℕ) : ℤ) := by
    exact_mod_cast Nat.pow_dvd_pow 2 (by omega)
  rw [BitVec.toNat_setWidth, BitVec.signExtend, BitVec.toNat_ofInt, BitVec.toNat_ofInt,
    ← Int.emod_emod_of_dvd _ hdvd, Int.toNat_emod (Int.emod_nonneg _ (by decide)) (by positivity)]
  rfl

private theorem byte_ofInt {n k : ℕ} (hk : k < n) (v : ℤ) :
    ((BitVec.ofInt (8 * n) v >>> (8 * k)) &&& 0xFF).setWidth 8 = BitVec.ofInt 8 (v / 256 ^ k) := by
  have hmask : (0xFF : BitVec (8 * n)).toNat = 2 ^ 8 - 1 := by
    have hle : 2 ^ 8 ≤ 2 ^ (8 * n) := Nat.pow_le_pow_right (by decide) (by omega)
    exact Nat.mod_eq_of_lt (Nat.lt_of_lt_of_le (by decide : 255 < 2 ^ 8) hle)
  have hpow : ((2 ^ (8 * n) : ℕ) : ℤ) = 256 ^ k * (256 * 256 ^ (n - k - 1)) := by
    rw [← pow_succ', ← pow_add, show k + (n - k - 1 + 1) = n by omega, pow_mul]
    norm_num
  -- what the width cuts off the number is a multiple of the next byte's unit
  have hcut : v / 256 ^ k = v % (2 ^ (8 * n) : ℕ) / 256 ^ k +
      256 * (256 ^ (n - k - 1) * (v / (2 ^ (8 * n) : ℕ))) := by
    have hv := Int.emod_add_mul_ediv v (2 ^ (8 * n) : ℕ)
    conv_lhs => rw [← hv, hpow, mul_assoc, Int.add_mul_ediv_left _ _ (by positivity)]
    rw [← hpow, mul_assoc]
  have hpos : 0 ≤ v % (2 ^ (8 * n) : ℕ) := Int.emod_nonneg _ (by positivity)
  obtain ⟨m, hm⟩ := Int.eq_ofNat_of_zero_le hpos
  apply BitVec.eq_of_toNat_eq
  rw [BitVec.toNat_setWidth, BitVec.toNat_and, BitVec.toNat_ushiftRight, BitVec.toNat_ofInt,
    BitVec.toNat_ofInt, hmask, Nat.and_two_pow_sub_one_eq_mod, Nat.mod_mod,
    Nat.shiftRight_eq_div_pow, hcut, show ((2 ^ 8 : ℕ) : ℤ) = 256 from rfl,
    Int.add_mul_emod_self_left, hm, pow_mul]
  norm_cast

private theorem shiftIn_eq (hb : bytes ≤ 4) {i rest : ℕ} (h : NullTerminated name i s)
    (taken : List (BitVec 8)) :
    shiftIn name rest (BitVec.ofInt (8 * bytes) (signedValue taken)) i =
      (BitVec.ofInt (8 * bytes) (signedValue (taken ++ s.take rest)), i + min rest s.length) := by
  induction rest generalizing i s taken with
  | zero => simp [shiftIn]
  | succ rest ih =>
      cases s with
      | nil =>
          have hz : name i = 0 := h
          rw [shiftIn, if_neg (not_not.mpr hz)]
          simp
      | cons c s =>
          obtain ⟨hc, hne, hs⟩ := h
          have hshift := ofInt_shiftLeft (8 * bytes) 1 (signedValue taken)
          rw [pow_one] at hshift
          rw [shiftIn, if_pos (hc ▸ hne), hshift, setWidth_signExtend hb, ← BitVec.ofInt_add, hc,
            ← signedValue_snoc, ih hs, List.append_assoc, List.take_succ_cons, List.length_cons]
          simp
          omega

private theorem getIdentificationFromName_eq (hb : bytes ≤ 4) (h : NullTerminated name 0 s) :
    getIdentificationFromName bytes (some name) =
      BitVec.ofInt (8 * bytes) (signedValue (padded bytes s)) := by
  cases s with
  | nil =>
      have hz : name 0 = 0 := h
      rw [padded_nil, signedValue_zeros, getIdentificationFromName]
      exact if_neg (not_not.mpr hz)
  | cons c s =>
      have hne : name 0 ≠ 0 := by
        rw [h.1]
        exact h.2.1
      have hloop : shiftIn name bytes (BitVec.ofInt (8 * bytes) (signedValue [])) 0 = _ :=
        shiftIn_eq hb h []
      rw [List.nil_append] at hloop
      have hzero : (0 : BitVec (8 * bytes)) = BitVec.ofInt (8 * bytes) (signedValue []) := rfl
      simp only [getIdentificationFromName, if_pos hne]
      rw [hzero, hloop]
      simp only
      rw [ofInt_shiftLeft, padded, signedValue_append, signedValue_zeros, add_zero,
        List.length_replicate,
        show bytes - (0 + min bytes (c :: s).length) = bytes - (c :: s).length by omega]

private theorem writeBytes_apply (id : BitVec (8 * bytes)) (length rest pos : ℕ) (j : ℕ) :
    writeBytes id length rest pos buffer j =
      if pos ≤ j ∧ j < pos + rest ∧ j < length - 1 then
        ((id >>> (8 * (pos + rest - 1 - j))) &&& 0xFF).setWidth 8
      else buffer j := by
  induction rest generalizing pos buffer with
  | zero => rw [writeBytes, if_neg (by omega)]
  | succ rest ih =>
      rw [writeBytes]
      split
      next hpos =>
        rw [ih]
        by_cases hj : j = pos
        · subst hj
          rw [if_neg (by omega), if_pos (by omega), Function.update_self,
            show j + (rest + 1) - 1 - j = rest by omega]
        · rw [Function.update_of_ne hj, show pos + 1 + rest = pos + (rest + 1) by omega]
          by_cases hin : pos + 1 ≤ j ∧ j < pos + (rest + 1) ∧ j < length - 1
          · rw [if_pos hin, if_pos (by omega)]
          · rw [if_neg hin, if_neg (by omega)]
      next hpos => rw [if_neg (by omega)]

private theorem convertIdentificationToString_eq (id : BitVec (8 * bytes)) {length : ℕ}
    (hL : 2 ≤ length) (buffer : Memory) :
    convertIdentificationToString id (some buffer) length = some fun j =>
      if j < min bytes (length - 1) then ((id >>> (8 * (bytes - 1 - j))) &&& 0xFF).setWidth 8
      else if j = min bytes (length - 1) then 0 else buffer j := by
  have hend : (if length > bytes + 1 then bytes else length - 1) = min bytes (length - 1) := by
    split <;> omega
  rw [convertIdentificationToString]
  simp only [if_pos (show length > 1 by omega), hend, Option.some.injEq]
  funext j
  by_cases hj : j = min bytes (length - 1)
  · rw [hj, Function.update_self, if_neg (by omega), if_pos rfl]
  · rw [Function.update_of_ne hj, writeBytes_apply, if_neg hj]
    by_cases hin : j < min bytes (length - 1)
    · rw [if_pos (by omega), if_pos hin, Nat.zero_add]
    · rw [if_neg (by omega), if_neg hin]

private theorem byte_getIdentificationFromName (hb : bytes ≤ 4) (h : NullTerminated name 0 s) {j : ℕ}
    (hj : j < bytes) :
    ((getIdentificationFromName bytes (some name) >>> (8 * (bytes - 1 - j))) &&& 0xFF).setWidth 8 =
      s.getD j 0 - if j + 1 < bytes ∧ (s.getD (j + 1) 0).msb = true then 1 else 0 := by
  have hnz := (nullTerminated_iff.mp h).1
  have htake : (padded bytes s).take (j + 1) = (padded bytes s).take j ++ [s.getD j 0] := by
    rw [List.take_add_one, getElem?_padded hj]
    rfl
  have hdrop : (padded bytes s).drop (j + 1) = padded (bytes - 1 - j) (s.drop (j + 1)) := by
    rw [drop_padded, show bytes - (j + 1) = bytes - 1 - j by omega]
  have hneg := signedValue_padded_neg (n := bytes - 1 - j) (s := s.drop (j + 1))
    (fun c hc => hnz c (List.mem_of_mem_drop hc))
  have hdiv := signedValue_append_div ((padded bytes s).take (j + 1)) ((padded bytes s).drop (j + 1))
  rw [List.take_append_drop, hdrop, length_padded, htake, signedValue_snoc] at hdiv
  have hwrap : BitVec.ofInt 8 (256 * signedValue ((padded bytes s).take j)) = 0#8 := by
    rw [BitVec.ofInt_mul]
    exact BitVec.zero_mul
  have hnext : (0 < bytes - 1 - j ∧ ((s.drop (j + 1)).getD 0 0).msb = true) ↔
      (j + 1 < bytes ∧ (s.getD (j + 1) 0).msb = true) := by
    rw [List.getD_eq_getElem?_getD, List.getElem?_drop, ← List.getD_eq_getElem?_getD, add_zero]
    constructor <;> rintro ⟨hlt, hmsb⟩ <;> exact ⟨by omega, hmsb⟩
  rw [getIdentificationFromName_eq hb h, byte_ofInt (by omega), hdiv, BitVec.ofInt_add,
    BitVec.ofInt_add, hwrap, BitVec.ofInt_toInt, BitVec.zero_add]
  by_cases hlow : j + 1 < bytes ∧ (s.getD (j + 1) 0).msb = true
  · rw [if_pos (hneg.mpr (hnext.mpr hlow)), if_pos hlow]
    exact (BitVec.sub_eq_add_neg (s.getD j 0) 1).symm
  · rw [if_neg (fun hlt => hlow (hnext.mp (hneg.mp hlt))), if_neg hlow]
    simp

private theorem getElem?_of_ne_zero (hs : ∀ c ∈ s, c ≠ 0) (j : ℕ) :
    s[j]? = if s.getD j 0 = 0 then none else some (s.getD j 0) := by
  rw [List.getD_eq_getElem?_getD]
  by_cases hj : j < s.length
  · rw [List.getElem?_eq_getElem hj, Option.getD_some, if_neg (hs _ (List.getElem_mem hj))]
  · rw [List.getElem?_eq_none (by omega), Option.getD_none, if_pos rfl]

private theorem getIdentificationFromName_injective (hb : bytes ≤ 4) {name' : Memory}
    {s' : List (BitVec 8)} (h : NullTerminated name 0 s) (h' : NullTerminated name' 0 s')
    (hid : getIdentificationFromName bytes (some name) =
      getIdentificationFromName bytes (some name')) : s.take bytes = s'.take bytes := by
  -- from the last character on, each byte fixes its character once the next one is known
  have hchar : ∀ k j, j + k + 1 = bytes → s.getD j 0 = s'.getD j 0 := by
    intro k
    induction k with
    | zero =>
        intro j hj
        have hbyte := byte_getIdentificationFromName hb h (j := j) (by omega)
        have hbyte' := byte_getIdentificationFromName hb h' (j := j) (by omega)
        rw [hid, hbyte', if_neg (by omega), if_neg (by omega)] at hbyte
        simpa using hbyte.symm
    | succ k ih =>
        intro j hj
        have hbyte := byte_getIdentificationFromName hb h (j := j) (by omega)
        have hbyte' := byte_getIdentificationFromName hb h' (j := j) (by omega)
        rw [hid, hbyte', ← ih (j + 1) (by omega)] at hbyte
        exact (BitVec.sub_left_inj _).mp hbyte.symm
  apply List.ext_getElem?
  intro j
  rw [List.getElem?_take, List.getElem?_take]
  split
  next hj =>
    rw [getElem?_of_ne_zero (nullTerminated_iff.mp h).1,
      getElem?_of_ne_zero (nullTerminated_iff.mp h').1, hchar (bytes - 1 - j) j (by omega)]
  next hj => rfl

private theorem lt_length_of_msb {i : ℕ} (h : (s.getD i 0).msb = true) : i < s.length := by
  by_contra hi
  rw [List.getD_eq_getElem?_getD, List.getElem?_eq_none (by omega)] at h
  exact Bool.false_ne_true h

private theorem getD_take {j m : ℕ} (hj : j < m) : (s.take m).getD j 0 = s.getD j 0 := by
  rw [List.getD_eq_getElem?_getD, List.getElem?_take_of_lt hj, List.getD_eq_getElem?_getD]

/-- A name comes back from its identification, cut to the room there is, exactly when no character
that is read after the first one, up to the one behind the last byte of the buffer, is negative; a
negative character takes one from the character before it. Different beginnings always have
different identifications. -/
theorem convert_getIdentificationFromName (h : NullTerminated name 0 s) {length : ℕ}
    (hL : 2 ≤ length) (buffer : Memory) :
    ((∃ out, convertIdentificationToString (getIdentificationFromName sizeofId (some name))
          (some buffer) length = some out ∧
        NullTerminated out 0 (s.take (min sizeofId (length - 1))) ∧
        ∀ i, length ≤ i → out i = buffer i) ↔
      ∀ i, 1 ≤ i → i < sizeofId → i < length → (s.getD i 0).msb = false) ∧
    ∀ name' s', NullTerminated name' 0 s' → s.take sizeofId ≠ s'.take sizeofId →
      getIdentificationFromName sizeofId (some name) ≠
        getIdentificationFromName sizeofId (some name') := by
  have hb : sizeofId ≤ 4 := le_rfl
  refine ⟨?_, fun name' s' h' hne hid => hne (getIdentificationFromName_injective hb h h' hid)⟩
  rw [convertIdentificationToString_eq _ hL]
  simp only [Option.some.injEq, exists_eq_left', nullTerminated_iff, Nat.zero_add]
  constructor
  · rintro ⟨⟨-, hread⟩, -⟩ i hi hsize hlen
    by_contra hmsb
    rw [Bool.not_eq_false] at hmsb
    have hin : i < s.length := lt_length_of_msb hmsb
    obtain ⟨j, rfl⟩ : ∃ j, i = j + 1 := ⟨i - 1, by omega⟩
    have hj : j < min sizeofId (length - 1) := by omega
    have hbyte := hread j (by rw [List.length_take]; omega)
    rw [if_pos hj, byte_getIdentificationFromName hb h (by omega), if_pos ⟨hsize, hmsb⟩,
      getD_take hj] at hbyte
    have hone := (BitVec.sub_right_inj (s.getD j 0)).mp (hbyte.trans (BitVec.sub_zero _).symm)
    exact absurd hone (by decide)
  · intro hpos
    refine ⟨⟨?_, ?_⟩, ?_⟩
    · exact fun c hc => (nullTerminated_iff.mp h).1 c (List.mem_of_mem_take hc)
    · intro j hj
      rw [List.length_take] at hj
      by_cases hin : j < min sizeofId (length - 1)
      · have hborrow : ¬ (j + 1 < sizeofId ∧ (s.getD (j + 1) 0).msb = true) := by
          rintro ⟨hsize, hmsb⟩
          rw [hpos (j + 1) (by omega) hsize (by omega)] at hmsb
          exact Bool.false_ne_true hmsb
        rw [if_pos hin, byte_getIdentificationFromName hb h (by omega), if_neg hborrow, getD_take hin]
        exact BitVec.sub_zero _
      · rw [if_neg hin, if_pos (by omega), List.getD_eq_getElem?_getD,
          List.getElem?_eq_none (by rw [List.length_take]; omega)]
        rfl
    · intro i hi
      rw [if_neg (by omega), if_neg (by omega)]

theorem convert_getIdentificationFromName_abcd :
    ∃ out, convertIdentificationToString
        (getIdentificationFromName sizeofId (some fun i => [0x61, 0x62, 0x63, 0x64].getD i 0))
        (some fun _ => 0) 5 = some out ∧
      NullTerminated out 0 [0x61, 0x62, 0x63, 0x64] ∧ ∀ i, 5 ≤ i → out i = 0 := by
  have h : NullTerminated (fun i => [0x61, 0x62, 0x63, 0x64].getD i 0) 0 [0x61, 0x62, 0x63, 0x64] := by
    decide
  have hpos : ∀ i < sizeofId, (([0x61, 0x62, 0x63, 0x64] : List (BitVec 8)).getD i 0).msb = false := by
    decide
  exact (convert_getIdentificationFromName h (by decide) _).1.mpr (fun i _ hsize _ => hpos i hsize)

/-- The UTF-8 bytes of "aä" come back as 0x60, 0xC2, 0xA4. -/
theorem name_altered :
    NullTerminated (fun i => [0x61, 0xC3, 0xA4].getD i 0) 0 [0x61, 0xC3, 0xA4] ∧
    ∃ out, convertIdentificationToString
        (getIdentificationFromName sizeofId (some fun i => [0x61, 0xC3, 0xA4].getD i 0))
        (some fun _ => 0) 5 = some out ∧
      NullTerminated out 0 [0x60, 0xC2, 0xA4] ∧ ¬ NullTerminated out 0 [0x61, 0xC3, 0xA4] :=
  ⟨by decide, _, rfl, by decide, by decide⟩

end TaskingFramework
