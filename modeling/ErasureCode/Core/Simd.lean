import Mathlib.Tactic.IntervalCases
import ErasureCode.Core.Buffer
import ErasureCode.Core.Memory

/-!
# Vector registers

A register of `w` bytes is a `Vector UInt8 w`, its lowest byte first. `pand`,
`pxor`, `psraw`, `pshufb` and `pcmpgtb` are the instructions of these names, on 16, 32
or 64 bytes; the shuffle looks up bytes of its own 16-byte lane. `vperm2i128` and
`vshufi64x2` move whole lanes, and `maskz` is what an instruction does to its result
when it has a mask.

`movdqu` and `movdqust` load and store a register, `movdquTbl` loads from an array.

`blockLoop` is the loop over whole registers that the kernels end with one more
round for what is left: `len / w` rounds, and the end (`blockLoop_eq`). When the
rounds write their bytes, and the end the last ones, all `len` bytes are written
(`blockLoop_written`).
-/
namespace ErasureCode.Core

variable {w : Nat}

@[simp] theorem cell_ofFn {α : Type} [Inhabited α] {N : Nat} (f : Fin N → α) {i : Nat} (hi : i < N) :
    cell (Vector.ofFn f) i = f ⟨i, hi⟩ := by
  simp [cell, hi]

/-! ## Instructions -/

def pand (x y : Vector UInt8 w) : Vector UInt8 w := Vector.ofFn fun i => cell x i &&& cell y i

def pxor (x y : Vector UInt8 w) : Vector UInt8 w := Vector.ofFn fun i => cell x i ^^^ cell y i

/-- The arithmetic shift of the 16-bit words. -/
def psraw (x : Vector UInt8 w) (s : Nat) : Vector UInt8 w := Vector.ofFn fun i =>
  let word := ((cell x (i / 2 * 2 + 1)).toBitVec ++ (cell x (i / 2 * 2)).toBitVec).sshiftRight s
  ⟨word.extractLsb' (i % 2 * 8) 8⟩

/-- A byte with its high bit set clears; any other selects from its lane of `t`. -/
def pshufb (t x : Vector UInt8 w) : Vector UInt8 w := Vector.ofFn fun i =>
  if 128 ≤ (cell x i).toNat then 0 else cell t (i / 16 * 16 + (cell x i).toNat % 16)

/-- Four bits of `imm` for each lane: two select it, one clears it. -/
def vperm2i128 (x y : Vector UInt8 32) (imm : Nat) : Vector UInt8 32 := Vector.ofFn fun i =>
  let sel := imm / 16 ^ (i.val / 16) % 16
  if 8 ≤ sel then 0 else cell (if sel % 4 < 2 then x else y) (sel % 2 * 16 + i % 16)

/-- Two bits of `imm` for each lane; the two low lanes come from `x`, the others
from `y`. -/
def vshufi64x2 (x y : Vector UInt8 64) (imm : Nat) : Vector UInt8 64 := Vector.ofFn fun i =>
  cell (if i.val / 16 < 2 then x else y) (imm / 4 ^ (i.val / 16) % 4 * 16 + i % 16)

/-- All ones where the byte of `x` is greater, as a signed byte. -/
def pcmpgtb (x y : Vector UInt8 w) : Vector UInt8 w := Vector.ofFn fun i =>
  if (cell y i).toInt8 < (cell x i).toInt8 then 0xff else 0

/-- A byte whose bit is not set is cleared. -/
def maskz (k : BitVec 64) (x : Vector UInt8 w) : Vector UInt8 w := Vector.ofFn fun i =>
  if k.getLsbD i then cell x i else 0

/-- The same byte everywhere. -/
def broadcastb (w : Nat) (b : UInt8) : Vector UInt8 w := Vector.replicate w b

theorem cell_pxor (x y : Vector UInt8 w) {i : Nat} (hi : i < w) : cell (pxor x y) i = cell x i ^^^ cell y i :=
  cell_ofFn _ hi

theorem pxor_comm (x y : Vector UInt8 w) : pxor x y = pxor y x := by
  unfold pxor
  simp only [UInt8.xor_comm]

theorem cell_broadcastb {b : UInt8} {i : Nat} (hi : i < w) : cell (broadcastb w b) i = b := by
  simp [cell, broadcastb, hi]

theorem cell_pand (x y : Vector UInt8 w) {i : Nat} (hi : i < w) : cell (pand x y) i = cell x i &&& cell y i :=
  cell_ofFn _ hi

theorem cell_pcmpgtb (x y : Vector UInt8 w) {i : Nat} (hi : i < w) :
    cell (pcmpgtb x y) i = if (cell y i).toInt8 < (cell x i).toInt8 then 0xff else 0 :=
  cell_ofFn _ hi

theorem cell_maskz (k : BitVec 64) (x : Vector UInt8 w) {i : Nat} (hi : i < w) :
    cell (maskz k x) i = if k.getLsbD i then cell x i else 0 :=
  cell_ofFn _ hi

/-- A number that fits is read back from its low byte. -/
theorem toInt8_ofInt {z : Int} (hlo : -128 ≤ z) (hhi : z < 128) : (UInt8.ofInt z).toInt8.toInt = z := by
  have hz : Int.bmod z 256 = z := Int.bmod_eq_of_le_mul_two (by omega) (by omega)
  rw [UInt8.ofInt, UInt8.toInt8_ofNat', Int8.toInt_ofNat', Int.toNat_of_nonneg (Int.emod_nonneg z (by decide))]
  exact (Int.emod_bmod z 256).trans hz

theorem toInt8_complement {i : Nat} (hi : i < 128) : (UInt8.ofNat (0xff - i)).toInt8.toInt = -((i : Int) + 1) := by
  have hsub : ((0xff - i : Nat) : Int) = -((i : Int) + 1) + 256 := by omega
  have hz : Int.bmod (-((i : Int) + 1)) 256 = -((i : Int) + 1) := Int.bmod_eq_of_le_mul_two (by omega) (by omega)
  rw [UInt8.toInt8_ofNat', Int8.toInt_ofNat', hsub]
  exact (Int.add_bmod_right _ 256).trans hz

/-- The low nibbles. -/
theorem cell_pand_mask (x : Vector UInt8 w) {i : Nat} (hi : i < w) :
    cell (pand x (broadcastb w 0x0f)) i = UInt8.ofNat ((cell x i).toNat % 16) := by
  rw [pand, cell_ofFn _ hi]
  dsimp only
  rw [cell_broadcastb hi]
  apply UInt8.toNat_inj.1
  have hlt : (cell x i).toNat % 16 < 2 ^ 8 := by omega
  rw [UInt8.toNat_and, show (0x0f : UInt8).toNat = 2 ^ 4 - 1 from rfl, Nat.and_two_pow_sub_one_eq_mod,
    UInt8.toNat_ofNat', Nat.mod_eq_of_lt hlt]

/-- Bits 4 to 7 of either byte of a word are its low bits after the shift. -/
theorem nibble_of_word (lo hi : BitVec 8) :
    ((hi ++ lo).sshiftRight 4).extractLsb' 0 8 &&& 0x0f#8 = lo >>> 4 ∧
      ((hi ++ lo).sshiftRight 4).extractLsb' 8 8 &&& 0x0f#8 = hi >>> 4 := by
  constructor
  all_goals
    refine BitVec.eq_of_getLsbD_eq fun i hi => ?_
    simp only [BitVec.getLsbD_and, BitVec.getLsbD_extractLsb', BitVec.getLsbD_sshiftRight, BitVec.getLsbD_append,
      BitVec.getLsbD_ushiftRight]
    interval_cases i <;> simp

/-- The high nibbles. -/
theorem cell_pand_psraw (x : Vector UInt8 w) {i : Nat} (hi : i < w) :
    cell (pand (psraw x 4) (broadcastb w 0x0f)) i = UInt8.ofNat ((cell x i).toNat / 16) := by
  have hshift : ∀ b : UInt8, (⟨b.toBitVec >>> 4⟩ : UInt8) = UInt8.ofNat (b.toNat / 16) := fun b => by
    have hlt : b.toNat / 16 < 2 ^ 8 := by have := b.toNat_lt; omega
    apply UInt8.toNat_inj.1
    rw [UInt8.toNat_ofNat', Nat.mod_eq_of_lt hlt]
    exact (BitVec.toNat_ushiftRight _ _).trans (Nat.shiftRight_eq_div_pow _ _)
  have hword := nibble_of_word (cell x (i / 2 * 2)).toBitVec (cell x (i / 2 * 2 + 1)).toBitVec
  rw [pand, cell_ofFn _ hi]
  dsimp only
  rw [cell_broadcastb hi, psraw, cell_ofFn _ hi, ← hshift]
  apply UInt8.toBitVec_inj.1
  change BitVec.extractLsb' (i % 2 * 8) 8 _ &&& 0x0f#8 = _
  obtain h | h : i % 2 = 0 ∨ i % 2 = 1 := by omega
  · rw [h, Nat.zero_mul, hword.1, show i / 2 * 2 = i by omega]
  · rw [h, Nat.one_mul, hword.2, show i / 2 * 2 + 1 = i by omega]

/-- A nibble looks up its entry in the lane. -/
theorem cell_pshufb {t x : Vector UInt8 w} {i h : Nat} (hi : i < w) (hh : h < 16) (hx : cell x i = UInt8.ofNat h) :
    cell (pshufb t x) i = cell t (i / 16 * 16 + h) := by
  have hlt : h < 2 ^ 8 := by omega
  have hnat : (UInt8.ofNat h).toNat = h := by rw [UInt8.toNat_ofNat', Nat.mod_eq_of_lt hlt]
  rw [pshufb, cell_ofFn _ hi]
  dsimp only
  rw [hx, hnat, if_neg (by omega), Nat.mod_eq_of_lt hh]

/-- Byte `d` of lane `l`, for which `imm` has the bits `sel`. -/
theorem cell_vperm2i128 {x y : Vector UInt8 32} {imm l d sel : Nat} (hl : l < 2) (hd : d < 16)
    (hsel : imm / 16 ^ l % 16 = sel) (hlt : sel < 4) :
    cell (vperm2i128 x y imm) (l * 16 + d) = cell (if sel < 2 then x else y) (sel % 2 * 16 + d) := by
  rw [vperm2i128, cell_ofFn _ (by omega)]
  dsimp only
  rw [show (l * 16 + d) / 16 = l by omega, show (l * 16 + d) % 16 = d by omega, hsel, if_neg (by omega),
    Nat.mod_eq_of_lt hlt]

theorem cell_vshufi64x2 {x y : Vector UInt8 64} {imm l d sel : Nat} (hl : l < 4) (hd : d < 16)
    (hsel : imm / 4 ^ l % 4 = sel) :
    cell (vshufi64x2 x y imm) (l * 16 + d) = cell (if l < 2 then x else y) (sel * 16 + d) := by
  rw [vshufi64x2, cell_ofFn _ (by omega)]
  dsimp only
  rw [show (l * 16 + d) / 16 = l by omega, show (l * 16 + d) % 16 = d by omega, hsel]

/-! ## Loads and stores -/

/-- `w` bytes at `p`. -/
def movdqu (w : Nat) (mem : Mem) (p : Ptr) : Option (Vector UInt8 w) :=
  forUp 0 w (broadcastb w 0) fun i x => do wr x i (← load mem (p.add i))

/-- `w` bytes of an array. -/
def movdquTbl {N : Nat} (w : Nat) (v : Vector UInt8 N) (pos : Nat) : Option (Vector UInt8 w) :=
  forUp 0 w (broadcastb w 0) fun i x => do wr x i (← v[pos + i]?)

/-- The register to the `w` bytes at `p`. -/
def movdqust (mem : Mem) (p : Ptr) (x : Vector UInt8 w) : Option Mem :=
  forUp 0 w mem fun i mem => store mem (p.add i) (cell x i)

/-- An array that is filled cell by cell. -/
theorem returns_fill {α : Type} [Inhabited α] {n : Nat} {f : Nat → Option α} {Q : Nat → α → Prop}
    (h : ∀ i, i < n → Returns (f i) (Q i)) (x : Vector α n) :
    Returns (forUp 0 n x fun i x => do wr x i (← f i)) fun y => ∀ i, i < n → Q i (cell y i) := by
  refine Returns.forUp (fun j y => ∀ i, i < j → Q i (cell y i)) (Nat.zero_le n) (fun i hi => absurd hi (by omega))
    fun j y _ hj hy => (h j hj).bind fun a ha => ?_
  rw [wr_eq y hj]
  refine returns_some fun i hi => ?_
  by_cases hij : i = j
  · rw [hij, cell_upd_self _ hj]
    exact ha
  · rw [cell_upd_ne _ (Ne.symm hij)]
    exact hy i (by omega)

theorem fill_spec {f : Nat → Option UInt8} {val : Nat → UInt8} (h : ∀ i, i < w → f i = some (val i))
    (x : Vector UInt8 w) :
    Returns (forUp 0 w x fun i x => do wr x i (← f i)) fun y => ∀ i, i < w → cell y i = val i :=
  returns_fill (Q := fun i b => b = val i) (fun i hi => ⟨val i, h i hi, rfl⟩) x

theorem movdqu_spec {mem : Mem} {p : Ptr} (h : Valid mem p w) :
    Returns (movdqu w mem p) fun x => ∀ i, i < w → cell x i = byteAt mem (p.add i) :=
  fill_spec (fun i hi => load_eq (h i hi)) _

theorem movdquTbl_spec {N : Nat} {v : Vector UInt8 N} {pos : Nat} (h : pos + w ≤ N) :
    Returns (movdquTbl w v pos) fun x => ∀ i, i < w → cell x i = cell v (pos + i) :=
  fill_spec (fun i hi => rd_eq v (by omega)) _

theorem movdqust_spec {mem : Mem} {p : Ptr} {x : Vector UInt8 w} {T : Ptr → UInt8} (h : Valid mem p w)
    (hT : ∀ i, i < w → T (p.add i) = cell x i) :
    Returns (movdqust mem p x) fun mem' => Written mem mem' (fun q => ∃ i, i < w ∧ q = p.add i) T := by
  refine (forUp_written (W := fun i q => q = p.add i) (T := T) (Nat.zero_le w) fun i t _ hi ht => ?_).mono
    fun mem' h => h.congr fun q => by simp
  refine (store_spec (ht.isSome (h i hi)) _).mono fun t' ⟨hsize, hload⟩ => ⟨hsize, fun q hq => ?_, fun q hq => ?_⟩
  · rw [hload, if_pos hq, hq, hT i hi]
  · rw [hload, if_neg hq]

/-! ## Loops over whole registers -/

section
variable {σ : Type}

/-- Rounds at `pos`, `pos + w`, … while a whole register is left; `last` gets the
position the rounds have reached, when this is not `len`. -/
def blockLoop (w len : Nat) (body last : Nat → σ → Option σ) : Nat → Nat → σ → Option σ
  | 0, _, _ => none
  | fuel + 1, pos, s => do
    let s ← body pos s
    if pos + w ≤ len - w then blockLoop w len body last fuel (pos + w) s
    else if pos + w = len then return s
    else last (pos + w) s

/-- `len / w` rounds are enough, and are made. -/
theorem blockLoop_eq {len : Nat} (hw : 0 < w) (hlen : w ≤ len) (body last : Nat → σ → Option σ) (s : σ) :
    blockLoop w len body last (len / w) 0 s = forUp 0 (len / w) s (fun b => body (b * w)) >>= fun s =>
      if len / w * w = len then some s else last (len / w * w) s := by
  have hmul : len / w * w ≤ len := Nat.div_mul_le_self len w
  have hmod : len < len / w * w + w := Nat.lt_div_mul_add hw
  -- from round `b` on
  have hgo : ∀ c b s, 0 < c → b + c = len / w →
      blockLoop w len body last c (b * w) s = forUp b (len / w) s (fun b => body (b * w)) >>= fun s =>
        if len / w * w = len then some s else last (len / w * w) s := by
    intro c
    induction c with
    | zero =>
      intro b s h0
      exact absurd h0 (Nat.lt_irrefl 0)
    | succ c ih =>
      intro b s _ hb
      rw [blockLoop, forUp_step (by omega)]
      cases hs : body (b * w) s with
      | none => rfl
      | some t =>
        have hsucc : b * w + w = (b + 1) * w := (Nat.succ_mul b w).symm
        simp only [Option.bind_eq_bind, Option.bind_some, hsucc]
        by_cases hc : c = 0
        · have hlast : b + 1 = len / w := by omega
          rw [hlast, if_neg (by omega), forUp_of_le (Nat.le_refl _)]
          rfl
        · have hnext : (b + 1 + 1) * w ≤ len / w * w := Nat.mul_le_mul_right w (by omega)
          rw [Nat.succ_mul] at hnext
          rw [if_pos (by omega)]
          exact ih (b + 1) t (by omega) (by omega)
  have hpos : 0 < len / w := Nat.div_pos hlen hw
  have h := hgo (len / w) 0 s hpos (Nat.zero_add _)
  rwa [Nat.zero_mul] at h

end

/-- Rounds that each write the bytes of their register, and an end that writes the
bytes of the last one, over the bytes that are already written or not. -/
theorem blockLoop_written {len : Nat} (hw : 0 < w) (hlen : w ≤ len) {body last : Nat → Mem → Option Mem} {mem : Mem}
    {W : Nat → Ptr → Prop} {T : Ptr → UInt8}
    (hbody : ∀ pos t, pos + w ≤ len → Written mem t (fun q => ∃ p, p < pos ∧ W p q) T →
      Returns (body pos t) fun t' => Written t t' (fun q => ∃ i, i < w ∧ W (pos + i) q) T)
    (hlast : ∀ pos t, pos % w = 0 → pos < len → len < pos + w → Written mem t (fun q => ∃ p, p < pos ∧ W p q) T →
      Returns (last pos t) fun t' => Written t t' (fun q => ∃ p, len - w ≤ p ∧ p < len ∧ W p q) T) :
    Returns (blockLoop w len body last (len / w) 0 mem) fun t => Written mem t (fun q => ∃ p, p < len ∧ W p q) T := by
  have hmul : len / w * w ≤ len := Nat.div_mul_le_self len w
  have hmod : len < len / w * w + w := Nat.lt_div_mul_add hw
  rw [blockLoop_eq hw hlen]
  have hblocks : Returns (forUp 0 (len / w) mem fun b => body (b * w)) fun t =>
      Written mem t (fun q => ∃ p, p < len / w * w ∧ W p q) T := by
    refine Returns.forUp (fun b t => Written mem t (fun q => ∃ p, p < b * w ∧ W p q) T) (Nat.zero_le _)
      ((Written.refl mem T).congr fun q => by simp) fun b t _ hb ht => ?_
    have hin : b.succ * w ≤ len / w * w := Nat.mul_le_mul_right w hb
    rw [Nat.succ_mul] at hin
    refine (hbody (b * w) t (by omega) ht).mono fun t' ht' => (ht.trans ht').congr fun q => ?_
    rw [Nat.succ_mul]
    constructor
    · rintro (⟨p, hp, hq⟩ | ⟨i, hi, hq⟩)
      · exact ⟨p, by omega, hq⟩
      · exact ⟨b * w + i, by omega, hq⟩
    · rintro ⟨p, hp, hq⟩
      by_cases hlt : p < b * w
      · exact .inl ⟨p, hlt, hq⟩
      · exact .inr ⟨p - b * w, by omega, by rwa [Nat.add_sub_cancel' (by omega)]⟩
  refine hblocks.bind fun t ht => ?_
  split
  · rename_i heq
    rw [heq] at ht
    exact returns_some ht
  · refine (hlast (len / w * w) t (Nat.mul_mod_left _ _) (by omega) hmod ht).mono fun t' ht' => (ht.trans ht').congr fun q => ?_
    constructor
    · rintro (⟨p, hp, hq⟩ | ⟨p, -, hp, hq⟩)
      · exact ⟨p, by omega, hq⟩
      · exact ⟨p, hp, hq⟩
    · rintro ⟨p, hp, hq⟩
      by_cases hlt : p < len / w * w
      · exact .inl ⟨p, hlt, hq⟩
      · exact .inr ⟨p, by omega, hp, hq⟩

end ErasureCode.Core
