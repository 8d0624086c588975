import McfKv.Util.Coding

/-!
# Checksums (`util/crc32c.h`, `util/crc32c.cc`)

A checksum is stored *masked*, so that the checksum of data with embedded checksums is not
degenerate. `unmask_mask` says that the reader gets the checksum back.

`extend` is CRC-32C one bit at a time. The source computes the same function from tables, several
bytes at a time: `extendPortable` keeps four partial results, each for every fourth word of the
buffer. `Strides.combine` is the checksum of what they have read, and all loops keep it.

What the formats rely on is `extend_extend` alone, so the modules on the formats take the function
as a parameter with this property.
-/

namespace McfKv.Crc32c

/-- `kMaskDelta`. -/
def maskDelta : UInt32 := 0xa282ead8

/-- `Mask`: rotate right by 15 bits and add a constant. -/
def mask (crc : UInt32) : UInt32 := ((crc >>> 15) ||| (crc <<< 17)) + maskDelta

/-- `Unmask`. -/
def unmask (maskedCrc : UInt32) : UInt32 :=
  let rot := maskedCrc - maskDelta
  (rot >>> 17) ||| (rot <<< 15)

/-- A rotation by `k` bits of a word exchanges its low `k` bits and the others. -/
theorem rotate_eq {x k : ℕ} (hx : x < 2 ^ 32) (hk : k ≤ 32) :
    x / 2 ^ k ||| x * 2 ^ (32 - k) % 2 ^ 32 = x % 2 ^ k * 2 ^ (32 - k) + x / 2 ^ k := by
  have hpow : 2 ^ 32 = 2 ^ k * 2 ^ (32 - k) := by rw [← Nat.pow_add, Nat.add_sub_cancel' hk]
  have hhigh : x * 2 ^ (32 - k) % 2 ^ 32 = (x % 2 ^ k) <<< (32 - k) := by
    rw [hpow, Nat.mul_mod_mul_right, Nat.shiftLeft_eq]
  have hlow : x / 2 ^ k < 2 ^ (32 - k) := Nat.div_lt_of_lt_mul (hpow ▸ hx)
  rw [hhigh, Nat.or_comm, ← Nat.shiftLeft_add_eq_or_of_lt hlow, Nat.shiftLeft_eq]

/-- **A masked checksum gives the checksum back.** -/
theorem unmask_mask (c : UInt32) : unmask (mask c) = c := by
  have hlt := c.toNat_lt
  -- what `Mask` rotates right by 15 bits, `Unmask` rotates right by 17 bits
  have h₁ : ((c >>> 15) ||| (c <<< 17)).toNat = c.toNat % 2 ^ 15 * 2 ^ 17 + c.toNat / 2 ^ 15 := by
    rw [UInt32.toNat_or, UInt32.toNat_shiftRight, UInt32.toNat_shiftLeft,
      Nat.shiftRight_eq_div_pow, Nat.shiftLeft_eq]
    exact rotate_eq (k := 15) hlt (by omega)
  have h₂ : ∀ r : UInt32, ((r >>> 17) ||| (r <<< 15)).toNat =
      r.toNat % 2 ^ 17 * 2 ^ 15 + r.toNat / 2 ^ 17 := by
    intro r
    rw [UInt32.toNat_or, UInt32.toNat_shiftRight, UInt32.toNat_shiftLeft,
      Nat.shiftRight_eq_div_pow, Nat.shiftLeft_eq]
    exact rotate_eq (k := 17) r.toNat_lt (by omega)
  unfold unmask mask
  dsimp only
  rw [UInt32.add_sub_cancel]
  apply UInt32.toNat_inj.mp
  rw [h₂, h₁]
  omega

/-- One bit of the division by the reversed polynomial. -/
def shiftBit (l : UInt32) : UInt32 :=
  if l &&& 1 = 1 then (l >>> 1) ^^^ 0x82f63b78 else l >>> 1

/-- `STEP1`: the table entry for a byte is eight divisions. -/
def step1 (l : UInt32) (byte : UInt8) : UInt32 := shiftBit^[8] (l ^^^ byte.toUInt32)

/-- `Extend`. -/
def extend (crc : UInt32) (data : Slice) : UInt32 :=
  data.foldl step1 (crc ^^^ 0xffffffff) ^^^ 0xffffffff

/-- The checksum of a concatenation can be computed in two steps. -/
theorem extend_extend (crc : UInt32) (a b : Slice) :
    extend (extend crc a) b = extend crc (a ++ b) := by
  unfold extend
  rw [List.foldl_append, UInt32.xor_assoc, UInt32.xor_self, UInt32.xor_zero]

/-! ## The portable implementation -/

/-- `kByteExtensionTable`. The source lists the 256 values. -/
def byteExtensionTable (c : UInt32) : UInt32 := shiftBit^[8] c

/-- `kStrideExtensionTable0` to `kStrideExtensionTable3`, listed in the same way. -/
def strideExtensionTable (s : ℕ) (c : UInt32) : UInt32 := shiftBit^[8 * (13 + s)] c

-- the entries of the five tables for one bit; by `iterate_xor` they determine the others
example : [1, 2, 4, 8, 16, 32, 64, 128].map byteExtensionTable =
    [0xf26b8303, 0xe13b70f7, 0xc79a971f, 0x8ad958cf, 0x105ec76f, 0x20bd8ede, 0x417b1dbc,
      0x82f63b78] ∧
    (List.range 4).map (fun s => [1, 2, 4, 8, 16, 32, 64, 128].map (strideExtensionTable s)) =
    [[0x30d23865, 0x61a470ca, 0xc348e194, 0x837db5d9, 0x3171d43, 0x62e3a86, 0xc5c750c,
        0x18b8ea18],
      [0x54075546, 0xa80eaa8c, 0x55f123e9, 0xabe247d2, 0x5228f955, 0xa451f2aa, 0x4d4f93a5,
        0x9a9f274a],
      [0x678efd01, 0xcf1dfa02, 0x9bd782f5, 0x3243731b, 0x6486e636, 0xc90dcc6c, 0x97f7ee29,
        0x2a03aaa3],
      [0xf20c0dfe, 0xe1f46d0d, 0xc604aceb, 0x89e52f27, 0x162628bf, 0x2c4c517e, 0x5898a2fc,
        0xb13145f8]] := by
  decide +kernel

/-- `STEP1`. -/
def tableStep1 (l : UInt32) (byte : UInt8) : UInt32 :=
  byteExtensionTable ((l &&& 0xff) ^^^ byte.toUInt32) ^^^ (l >>> 8)

/-- `ReadUint32LE`. -/
def readUint32LE (p : Slice) : UInt32 := UInt32.ofNat (Coding.decodeFixed32 p)

/-- `STEP4`. -/
def step4 (crc : UInt32) (p : Slice) : UInt32 :=
  readUint32LE p ^^^ strideExtensionTable 3 (crc &&& 0xff) ^^^
    strideExtensionTable 2 ((crc >>> 8) &&& 0xff) ^^^
    strideExtensionTable 1 ((crc >>> 16) &&& 0xff) ^^^ strideExtensionTable 0 (crc >>> 24)

/-- `STEP4W`. -/
def step4W (l w : UInt32) : UInt32 :=
  (fun w : UInt32 => (w >>> 8) ^^^ byteExtensionTable (w &&& 0xff))^[4] (w ^^^ l)

/-- The partial results `crc0` to `crc3`. -/
structure Strides where
  crc0 : UInt32
  crc1 : UInt32
  crc2 : UInt32
  crc3 : UInt32

namespace Strides

/-- `STEP16`. -/
def step16 (s : Strides) (p : Slice) : Strides :=
  ⟨step4 s.crc0 p, step4 s.crc1 (p.drop 4), step4 s.crc2 (p.drop 8), step4 s.crc3 (p.drop 12)⟩

/-- One word, after which the strides change places. -/
def word (s : Strides) (p : Slice) : Strides := ⟨s.crc1, s.crc2, s.crc3, step4 s.crc0 p⟩

/-- The partial results combined. -/
def combine (s : Strides) : UInt32 :=
  step4W (step4W (step4W (step4W 0 s.crc0) s.crc1) s.crc2) s.crc3

end Strides

/-- The loop over 16 bytes at a time. -/
def swathLoop (s : Strides) (p : Slice) : Strides × Slice :=
  if 16 ≤ p.length then swathLoop (s.step16 p) (p.drop 16) else (s, p)
termination_by p.length
decreasing_by
  rw [List.length_drop]
  omega

/-- The loop over words. -/
def wordLoop (s : Strides) (p : Slice) : Strides × Slice :=
  if 4 ≤ p.length then wordLoop (s.word p) (p.drop 4) else (s, p)
termination_by p.length
decreasing_by
  rw [List.length_drop]
  omega

/-- The part of `Extend` that needs 16 bytes. -/
def stridesPart (l : UInt32) (p : Slice) : UInt32 × Slice :=
  if 16 ≤ p.length then
    let s : Strides := ⟨readUint32LE p ^^^ l, readUint32LE (p.drop 4), readUint32LE (p.drop 8),
      readUint32LE (p.drop 12)⟩
    let (s, p) := swathLoop s (p.drop 16)
    let (s, p) := wordLoop s p
    (s.combine, p)
  else (l, p)

/-- `Extend` without acceleration, for a buffer at the address `addr`. -/
def extendPortable (addr : ℕ) (crc : UInt32) (buf : Slice) : UInt32 :=
  -- the first aligned byte may be behind the buffer
  let x := (addr + 3) / 4 * 4 - addr
  let front := if x ≤ buf.length then x else 0
  let (l, p) :=
    stridesPart ((buf.take front).foldl tableStep1 (crc ^^^ 0xffffffff)) (buf.drop front)
  p.foldl tableStep1 l ^^^ 0xffffffff

/-! ### The division is linear -/

theorem shiftBit_xor (x y : UInt32) : shiftBit (x ^^^ y) = shiftBit x ^^^ shiftBit y := by
  have hlow : ∀ z : UInt32, z &&& 1 = 0 ∨ z &&& 1 = 1 := by
    intro z
    have hz : (z &&& 1).toNat = z.toNat % 2 := (UInt32.toNat_and z 1).trans (Nat.and_one_is_mod _)
    rcases Nat.mod_two_eq_zero_or_one z.toNat with h | h
    · exact .inl (UInt32.toNat_inj.mp (hz.trans h))
    · exact .inr (UInt32.toNat_inj.mp (hz.trans h))
  have hbit : (x ^^^ y) &&& 1 = (x &&& 1) ^^^ (y &&& 1) := by
    apply UInt32.toNat_inj.mp
    simp only [UInt32.toNat_and, UInt32.toNat_xor, Nat.and_xor_distrib_right]
  have hself : ∀ a b p : UInt32, a ^^^ b = a ^^^ p ^^^ (b ^^^ p) := by
    intro a b p
    rw [UInt32.xor_comm b p, UInt32.xor_assoc, ← UInt32.xor_assoc p, UInt32.xor_self,
      UInt32.zero_xor]
  unfold shiftBit
  rw [hbit, UInt32.shiftRight_xor]
  rcases hlow x with hx | hx <;> rcases hlow y with hy | hy <;> simp [hx, hy]
  · ac_rfl
  · ac_rfl
  · exact hself ..

theorem iterate_xor (n : ℕ) (x y : UInt32) :
    shiftBit^[n] (x ^^^ y) = shiftBit^[n] x ^^^ shiftBit^[n] y := by
  induction n with
  | zero => rfl
  | succ n ih => simp only [Function.iterate_succ_apply', ih, shiftBit_xor]

/-- A word whose low bits are clear only moves down. -/
theorem toNat_iterate_of_dvd {x : UInt32} {n : ℕ} (hx : 2 ^ n ∣ x.toNat) :
    (shiftBit^[n] x).toNat = x.toNat / 2 ^ n := by
  induction n with
  | zero => simp
  | succ n ih =>
    obtain ⟨k, hk⟩ := hx
    have hn := ih ⟨2 * k, by rw [hk]; ring⟩
    have heven : shiftBit^[n] x &&& 1 ≠ 1 := by
      intro h
      have := congrArg UInt32.toNat h
      rw [UInt32.toNat_and, hn] at this
      simp [hk, Nat.pow_succ, Nat.mul_assoc] at this
    rw [Function.iterate_succ_apply', shiftBit, if_neg heven, UInt32.toNat_shiftRight, hn,
      Nat.pow_succ, ← Nat.div_div_eq_div_mul]
    rfl

theorem iterate_shiftLeft {x : UInt32} (hx : x.toNat < 2 ^ 24) : shiftBit^[8] (x <<< 8) = x := by
  have h : (x <<< 8).toNat = x.toNat * 2 ^ 8 := by
    rw [UInt32.toNat_shiftLeft, Nat.shiftLeft_eq]
    simp
    omega
  apply UInt32.toNat_inj.mp
  rw [toNat_iterate_of_dvd ⟨x.toNat, by rw [h, Nat.mul_comm]⟩, h]
  omega

theorem low_xor_high (x : UInt32) : (x &&& (0xff : UInt32)) ^^^ ((x >>> 8) <<< 8) = x := by
  apply UInt32.toBitVec_inj.mp
  apply BitVec.eq_of_getLsbD_eq
  intro i hi
  have hmask : (255#32).getLsbD i = decide (i < 8) := by
    rw [BitVec.getLsbD_ofNat, Nat.testBit_two_pow_sub_one 8 i]
    simp [hi]
  by_cases h : i < 8
  · simp [hmask, h]
  · have hback : 8 + (i - 8) = i := by omega
    simp [hmask, h, hback]
    exact fun hbit => hi

/-- **Eight divisions are one access to the table.** -/
theorem iterate_eight (x : UInt32) :
    shiftBit^[8] x = byteExtensionTable (x &&& 0xff) ^^^ (x >>> 8) := by
  have hx : (x >>> 8).toNat < 2 ^ 24 := by
    rw [UInt32.toNat_shiftRight, Nat.shiftRight_eq_div_pow]
    have := x.toNat_lt
    simp
    omega
  unfold byteExtensionTable
  rw [← iterate_shiftLeft hx, ← iterate_xor, low_xor_high]

theorem tableStep1_eq : tableStep1 = step1 := by
  funext l byte
  unfold tableStep1 step1
  rw [iterate_xor, iterate_eight l]
  unfold byteExtensionTable
  rw [iterate_xor, UInt32.xor_assoc, UInt32.xor_assoc, UInt32.xor_comm (l >>> 8)]

theorem step4W_eq (l w : UInt32) : step4W l w = shiftBit^[32] (w ^^^ l) := by
  have h : (fun w : UInt32 => (w >>> 8) ^^^ byteExtensionTable (w &&& 0xff)) = shiftBit^[8] := by
    funext w
    rw [iterate_eight, UInt32.xor_comm]
  rw [step4W, h, ← Function.iterate_mul]

/-- The four tables advance a word by 16 bytes. -/
theorem step4_eq (crc : UInt32) (p : Slice) :
    step4 crc p = readUint32LE p ^^^ shiftBit^[128] crc := by
  have hnext : ∀ n (x : UInt32),
      shiftBit^[n + 8] x = shiftBit^[n + 8] (x &&& 0xff) ^^^ shiftBit^[n] (x >>> 8) := by
    intro n x
    rw [Function.iterate_add_apply, iterate_eight, iterate_xor, byteExtensionTable,
      ← Function.iterate_add_apply]
  have h16 : crc >>> 8 >>> 8 = crc >>> 16 := by
    apply UInt32.toNat_inj.mp
    simp [UInt32.toNat_shiftRight, ← Nat.shiftRight_add]
  have h24 : crc >>> 16 >>> 8 = crc >>> 24 := by
    apply UInt32.toNat_inj.mp
    simp [UInt32.toNat_shiftRight, ← Nat.shiftRight_add]
  rw [hnext 120, hnext 112, h16, hnext 104, h24]
  simp only [step4, strideExtensionTable, UInt32.xor_assoc]

/-! ### Words and strides -/

theorem ofNat_cons (b : UInt8) {w : ℕ} (hw : w < 2 ^ 24) :
    UInt32.ofNat (b.toNat + 256 * w) = b.toUInt32 ^^^ (UInt32.ofNat w <<< 8) := by
  have hb := b.toNat_lt
  have hx : (UInt32.ofNat (b.toNat + 256 * w)).toNat = b.toNat + 256 * w :=
    UInt32.toNat_ofNat_of_lt' (show _ < 4294967296 by omega)
  rw [← low_xor_high (UInt32.ofNat (b.toNat + 256 * w))]
  congr 1
  · apply UInt32.toNat_inj.mp
    rw [UInt32.toNat_and, hx, UInt8.toNat_toUInt32]
    refine (Nat.and_two_pow_sub_one_eq_mod _ 8).trans ?_
    omega
  · congr 1
    apply UInt32.toNat_inj.mp
    rw [UInt32.toNat_shiftRight, hx, UInt32.toNat_ofNat_of_lt' (show w < 4294967296 by omega)]
    simp [Nat.shiftRight_eq_div_pow]
    omega

/-- Up to four bytes are one word. -/
theorem foldl_step1_word (bytes : Slice) (hlen : bytes.length ≤ 4) (l : UInt32) :
    bytes.foldl step1 l = shiftBit^[8 * bytes.length]
      (l ^^^ UInt32.ofNat (bytes.foldr (fun b acc => b.toNat + 256 * acc) 0)) := by
  induction bytes generalizing l with
  | nil => simp
  | cons b bytes ih =>
    rw [List.length_cons] at hlen
    have hlong : 256 ^ bytes.length ≤ 256 ^ 3 := Nat.pow_le_pow_right (by decide) (by omega)
    have hw := (Coding.littleEndian_lt bytes).trans_le hlong
    rw [List.foldl_cons, ih (by omega), List.foldr_cons, List.length_cons, Nat.mul_succ,
      Function.iterate_add_apply, ofNat_cons b hw, ← UInt32.xor_assoc, iterate_xor 8,
      iterate_shiftLeft ((UInt32.toNat_ofNat_of_lt' (hw.trans (by decide))).trans_lt hw)]
    rfl

theorem foldl_step1_four {p : Slice} (h : 4 ≤ p.length) (l : UInt32) :
    p.foldl step1 l = (p.drop 4).foldl step1 (shiftBit^[32] (readUint32LE p ^^^ l)) := by
  have hword := foldl_step1_word _ (List.length_take_le 4 p) l
  rw [List.length_take_of_le h, UInt32.xor_comm] at hword
  conv_lhs => rw [← List.take_append_drop 4 p, List.foldl_append, hword]
  rfl

/-- **What the strides stand for** has read four more bytes. -/
theorem Strides.combine_word (s : Strides) {p : Slice} (h : 4 ≤ p.length) :
    (p.drop 4).foldl step1 (s.word p).combine = p.foldl step1 s.combine := by
  rw [foldl_step1_four h]
  congr 1
  simp only [combine, word, step4W_eq, step4_eq, iterate_xor, ← Function.iterate_add_apply,
    Nat.reduceAdd, UInt32.xor_zero]
  ac_rfl

theorem Strides.combine_step16 (s : Strides) {p : Slice} (h : 16 ≤ p.length) :
    (p.drop 16).foldl step1 (s.step16 p).combine = p.foldl step1 s.combine := by
  have hword : ∀ (s : Strides) k, k ≤ 12 →
      (p.drop (k + 4)).foldl step1 (s.word (p.drop k)).combine = (p.drop k).foldl step1 s.combine :=
    fun s k hk => List.drop_drop ▸ s.combine_word (by rw [List.length_drop]; omega)
  -- the strides are back in their places after four words
  have hsteps : s.step16 p =
      (((s.word (p.drop 0)).word (p.drop 4)).word (p.drop 8)).word (p.drop 12) := rfl
  rw [hsteps, hword _ 12 le_rfl, hword _ 8 (by omega), hword _ 4 (by omega), hword s 0 (by omega),
    List.drop_zero]

theorem combine_start (l : UInt32) {p : Slice} (h : 16 ≤ p.length) :
    (p.drop 16).foldl step1 (Strides.mk (readUint32LE p ^^^ l) (readUint32LE (p.drop 4))
      (readUint32LE (p.drop 8)) (readUint32LE (p.drop 12))).combine = p.foldl step1 l := by
  have hword : ∀ l k, k ≤ 12 → (p.drop k).foldl step1 l =
      (p.drop (k + 4)).foldl step1 (shiftBit^[32] (readUint32LE (p.drop k) ^^^ l)) := by
    intro l k hk
    rw [foldl_step1_four (by rw [List.length_drop]; omega), List.drop_drop]
  simp only [Strides.combine, step4W_eq, UInt32.xor_zero]
  rw [← hword _ 12 le_rfl, ← hword _ 8 (by omega), ← hword _ 4 (by omega)]
  exact (hword l 0 (by omega)).symm

theorem swathLoop_spec (s : Strides) (p : Slice) :
    (swathLoop s p).2.foldl step1 (swathLoop s p).1.combine = p.foldl step1 s.combine := by
  fun_induction swathLoop s p with
  | case1 s p h ih => rw [ih, s.combine_step16 h]
  | case2 s p h => rfl

theorem wordLoop_spec (s : Strides) (p : Slice) :
    (wordLoop s p).2.foldl step1 (wordLoop s p).1.combine = p.foldl step1 s.combine := by
  fun_induction wordLoop s p with
  | case1 s p h ih => rw [ih, s.combine_word h]
  | case2 s p h => rfl

theorem stridesPart_spec (l : UInt32) (p : Slice) :
    (stridesPart l p).2.foldl step1 (stridesPart l p).1 = p.foldl step1 l := by
  unfold stridesPart
  split_ifs with h
  · exact (wordLoop_spec _ _).trans ((swathLoop_spec _ _).trans (combine_start l h))
  · rfl

/-- **The portable implementation computes the checksum**, wherever the buffer is. -/
theorem extendPortable_eq_extend (addr : ℕ) (crc : UInt32) (buf : Slice) :
    extendPortable addr crc buf = extend crc buf := by
  unfold extendPortable extend
  rw [tableStep1_eq]
  dsimp only
  rw [stridesPart_spec, ← List.foldl_append, List.take_append_drop]

end McfKv.Crc32c
