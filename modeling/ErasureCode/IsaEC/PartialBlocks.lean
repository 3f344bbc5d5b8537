import ErasureCode.IsaEC.Agreement
import ErasureCode.IsaEC.Recovery

/-!
# The last block of a strip

`encode_ptr` encodes `size / maxSize` blocks and leaves the rest of a strip
alone; the other loops take one block more when something is left, and that
block is a whole one.

* `protects_iff`: `encode_ptr` gives every byte of the parity strips its value
  exactly when no byte is left over, or those left over hold their value already.
* `block_loops_inside_iff`: `encode`, `decode`, `decode_ptr` and
  `cache_decode_ptr` stay inside strips of `L` bytes exactly when `maxSize`
  divides `L`.
-/
namespace ErasureCode.IsaEC

open ErasureCode.Core Isal Matrix

variable {k n : Nat}

/-! ## `encode_ptr` -/

/-- The sum over `j` of `gf_mul(encode_matrix[(k + l) * k + j], in[j][p])`. -/
def parityByte (ec : IsaEC k n) (mem : Mem) (in_ : Vector Ptr k) (l p : Nat) : UInt8 :=
  dotBytes k (fun j => stripByte mem in_ j p) fun j => cell ec.encode_matrix ((k + l) * k + j)

/-- Every byte of the parity strips has its value in `mem'`, and nothing else has
changed. -/
structure Protects (ec : IsaEC k n) (mem mem' : Mem) (in_ : Vector Ptr k) (out : Vector Ptr n) (size : Nat) :
    Prop where
  parity : ∀ l, l < n → ∀ p, p < size → stripByte mem' out l p = ec.parityByte mem in_ l p
  frame : ∀ q, ¬ StripCells out (fun _ => True) 0 size q → load mem' q = load mem q

/-- The bytes after the last whole block have their value before the call. -/
def RestHolds (ec : IsaEC k n) (mem : Mem) (in_ : Vector Ptr k) (out : Vector Ptr n) (size : Nat) : Prop :=
  ∀ l, l < n → ∀ p, size / ec.maxSize * ec.maxSize ≤ p → p < size → stripByte mem out l p = ec.parityByte mem in_ l p

theorem stripByte_left (mem : Mem) (in_ : Vector Ptr k) (out : Vector Ptr n) {j : Nat} (hj : j < k) (p : Nat) :
    stripByte mem (in_ ++ out) j p = stripByte mem in_ j p := by
  rw [stripByte, cell_append in_ out (by omega), if_pos hj, stripByte]

theorem cell_right (in_ : Vector Ptr k) (out : Vector Ptr n) {l : Nat} (hl : l < n) :
    cell (in_ ++ out) (k + l) = cell out l := by
  rw [cell_append in_ out (by omega), if_neg (by omega), Nat.add_sub_cancel_left]

/-- The byte `encode_ptr` writes, while `g_tbls` belongs to the encode matrix. -/
theorem encodedByte_intact {ec : IsaEC k n} (h : Intact ec) (mem : Mem) (in_ : Vector Ptr k) (out : Vector Ptr n)
    {l : Nat} (hl : l < n) (p : Nat) : ec.encodedByte mem in_ out (k + l) p = ec.parityByte mem in_ l p := by
  rw [encodedByte, parityByte, Nat.add_sub_cancel_left]
  refine dotBytes_congr_mul fun j hj => ?_
  have hcoef : coef ec.g_tbls k l j = cell ec.encode_matrix ((k + l) * k + j) :=
    congrArg GF256.byte (congrFun (tableRows_intact h hl) ⟨j, hj⟩)
  rw [hcoef, stripByte_left mem in_ out hj, gfMul_comm]

section
variable {in_ : Vector Ptr k} {out : Vector Ptr n} {mem : Mem} {size : Nat} {ec : IsaEC k n}

/-- A parity byte of the whole blocks is written, and nothing else is. -/
theorem encodePtr_blocks (hi : Intact ec) (hM : 0 < ec.maxSize) (hs : Strips mem (in_ ++ out) size)
    (hlt : size < 2 ^ 31) :
    Returns (encodePtr ec in_ out size mem) fun r => r.2 = true ∧
      (∀ l, l < n → ∀ p, p < size → stripByte r.1 out l p =
        if p < size / ec.maxSize * ec.maxSize then ec.parityByte mem in_ l p else stripByte mem out l p) ∧
      ∀ q, ¬ StripCells out (fun _ => True) 0 (size / ec.maxSize * ec.maxSize) q → load r.1 q = load mem q := by
  have hle : size / ec.maxSize * ec.maxSize ≤ size := Nat.div_mul_le_self size ec.maxSize
  have hB : (toInt (size / ec.maxSize)).toNat = size / ec.maxSize := by
    rw [toInt_eq (Nat.lt_of_le_of_lt (Nat.div_le_self _ _) hlt), Int.toNat_natCast]
  have hint : ∀ b, b < size / ec.maxSize → b * ec.maxSize < 2 ^ 31 := fun b hb => by
    have := Nat.mul_le_mul_right ec.maxSize (Nat.le_of_lt hb)
    omega
  refine (encodePtr_spec ec hM hs hB hle hint).mono fun r ⟨hr, hw⟩ => ⟨hr, fun l hl p hp => ?_, fun q hq => ?_⟩
  · have hbyte : ∀ m, stripByte m out l p = stripByte m (in_ ++ out) (k + l) p := fun m => by
      rw [stripByte, stripByte, cell_right in_ out hl]
    rw [hbyte, hbyte]
    split
    · rename_i hlt'
      rw [hw.stripByte_set (by omega) (Nat.le_add_right k l) hlt', encodedByte_intact hi mem in_ out hl]
    · rename_i hge
      exact hw.stripByte_frame hs hle (by omega) hp fun h => hge h.2
  · refine hw.frame q ?_
    rintro ⟨r', hr', hkr, p, h1, h2, rfl⟩
    refine hq ⟨r' - k, by omega, trivial, p, h1, h2, ?_⟩
    rw [← cell_right in_ out (show r' - k < n by omega), Nat.add_sub_cancel' hkr]

/-- **`encode_ptr` and the end of a strip.** It gives every byte of the parity
strips its value when the blocks leave no byte over, or the bytes left over have
it already, and only then. -/
theorem protects_iff {raw : IsaEC k n} {maxSize thread_num : Nat} (hnew : new raw maxSize thread_num = some ec)
    (hM : 0 < maxSize) (hs : Strips mem (in_ ++ out) size) (hlt : size < 2 ^ 31) :
    Returns (encodePtr ec in_ out size mem) fun r => r.2 = true ∧
      (Protects ec mem r.1 in_ out size ↔ maxSize ∣ size ∨ RestHolds ec mem in_ out size) := by
  have hf := new_fresh hnew
  have hmax := hf.maxSize_eq
  subst hmax
  refine (encodePtr_blocks hf.intact hM hs hlt).mono fun r ⟨hr, hset, hframe⟩ => ⟨hr, ?_⟩
  constructor
  · intro h
    refine .inr fun l hl p h1 h2 => ?_
    rw [← h.parity l hl p h2, hset l hl p h2, if_neg (by omega)]
  · intro h
    refine ⟨fun l hl p hp => ?_, fun q hq => hframe q ?_⟩
    · rw [hset l hl p hp]
      split
      · rfl
      · rename_i hge
        rcases h with hdvd | hrest
        · rw [Nat.div_mul_cancel hdvd] at hge
          exact absurd hp hge
        · exact hrest l hl p (Nat.not_lt.1 hge) hp
    · rintro ⟨l, hl, -, p, h1, h2, rfl⟩
      have hle : size / ec.maxSize * ec.maxSize ≤ size := Nat.div_mul_le_self size ec.maxSize
      exact hq ⟨l, hl, trivial, p, h1, by omega, rfl⟩

end

/-- Three bytes in blocks of two: the third is left over. -/
theorem protects_iff_three : ∃ ec : IsaEC 1 1, new default 2 4 = some ec ∧
    Returns (encodePtr ec (ownBuffers 0 1) (ownBuffers 1 1) 3 #[#[5, 6, 7], #[0, 0, 7]]) fun r => r.2 = true ∧
      (Protects ec #[#[5, 6, 7], #[0, 0, 7]] r.1 (ownBuffers 0 1) (ownBuffers 1 1) 3 ↔
        2 ∣ 3 ∨ RestHolds ec #[#[5, 6, 7], #[0, 0, 7]] (ownBuffers 0 1) (ownBuffers 1 1) 3) := by
  obtain ⟨ec, hnew⟩ := new_isSome (default : IsaEC 1 1) 2 4 (by decide)
  exact ⟨ec, hnew, protects_iff hnew (by decide) (by decide) (by decide)⟩

/-- A strip shorter than a block gets no parity at all. -/
theorem rest_unprotected : ∃ ec : IsaEC 1 1, new default 2 4 = some ec ∧
    encodePtr ec (ownBuffers 0 1) (ownBuffers 1 1) 1 #[#[5], #[0]] = some (#[#[5], #[0]], true) ∧
    ¬ Protects ec #[#[5], #[0]] #[#[5], #[0]] (ownBuffers 0 1) (ownBuffers 1 1) 1 := by
  have hcomp : (new (default : IsaEC 1 1) 2 4).map (fun ec =>
      (encodePtr ec (ownBuffers 0 1) (ownBuffers 1 1) 1 #[#[5], #[0]],
        ec.parityByte #[#[5], #[0]] (ownBuffers 0 1) 0 0)) = some (some (#[#[5], #[0]], true), 5) := by
    decide +kernel
  obtain ⟨ec, hnew, h⟩ := Option.map_eq_some_iff.1 hcomp
  obtain ⟨hcall, hbyte⟩ := Prod.ext_iff.1 h
  refine ⟨ec, hnew, hcall, fun hp => ?_⟩
  have h0 := hp.parity 0 (by decide) 0 (by decide)
  dsimp only at hbyte
  rw [hbyte] at h0
  exact absurd h0 (by decide)

/-! ## The other loops -/

section
variable {c N srcs dests M B L : Nat} {v : Vector Ptr c} {tbl : Vector UInt8 N} {σ τ : Nat → Nat} {mem mem' : Mem}

/-- Windows that have been written were in reach. -/
theorem windows_accessed (h : forUp 0 B mem (fun b t => window M srcs dests tbl v σ τ (b * M) t) = some mem')
    {b l i : Nat} (hb : b < B) (hl : l < dests) (hi : i < M) :
    (load mem ((cell v (τ l)).add (b * M + i))).isSome := by
  have hacc := forUp_accessed (Nat.zero_le B)
    (fun b t t' _ _ hw => ecEncodeData_accessed (fun _ _ => rfl) hw) h
  have := hacc.valid (((cell v (τ l)).add (b * M)).add i)
    ⟨b, Nat.zero_le b, hb, l, Nat.zero_le l, hl, i, Nat.zero_le i, hi, rfl⟩
  rwa [Ptr.add_add] at this

/-- As many windows as cover a strip fit in it only if they fill it. -/
theorem windows_inside (hM : 0 < M) (hd : 0 < dests) (hs : ExactStrips mem v L) (hτ : τ 0 < c)
    (h : forUp 0 ((L + M - 1) / M) mem (fun b t => window M srcs dests tbl v σ τ (b * M) t) = some mem') :
    M ∣ L := by
  by_contra hdvd
  -- position `L` is in the last window
  have hlast : L / M + 1 ≤ (L + M - 1) / M := by
    have hmod := Nat.pos_of_ne_zero fun h0 => hdvd (Nat.dvd_of_mod_eq_zero h0)
    have hdiv := Nat.div_add_mod' L M
    rw [Nat.le_div_iff_mul_le hM, Nat.succ_mul]
    omega
  have hpos := windows_accessed h hlast hd (Nat.mod_lt L hM)
  rw [Nat.div_add_mod', hs.ends _ hτ L (Nat.le_refl L)] at hpos
  cases hpos

end

section
variable {maxSize thread_num err_num L : Nat} {ec : IsaEC k n} {err_list : Vector UInt8 err_num}
  {matrix : Vector Ptr (k + n)} {in_ : Vector Ptr k} {out : Vector Ptr n} {mem : Mem}

theorem encode_inside_iff (hk : 0 < k) (hn : 0 < n) (hM : 0 < ec.maxSize) (hL : L < 2 ^ 31)
    (hs : ExactStrips mem (in_ ++ out) L) : (encode ec in_ out (k * L) mem).isSome ↔ ec.maxSize ∣ L := by
  constructor
  · intro h
    rw [encode_windows ec hk hM hL, Option.isSome_map] at h
    obtain ⟨mem', hloop⟩ := Option.isSome_iff_exists.1 h
    exact windows_inside hM hn hs (show k + 0 < k + n by omega) hloop
  · intro hdvd
    obtain ⟨r, hr, -⟩ := encode_mul ec hk hM hs.toStrips hdvd hL
    rw [hr]
    rfl

theorem decodePtr_inside_iff (hec : Sound ec) (hM : 0 < ec.maxSize) (hl : ValidList k n err_list)
    (he : 0 < err_num) (hr : Recoverable ec (erased err_list)) (hs : ExactStrips mem matrix L) :
    (decodePtr ec matrix err_list L mem).isSome ↔ ec.maxSize ∣ L := by
  constructor
  · intro h
    obtain ⟨ec', hload, hloaded⟩ := loadDecodeTables_spec hec hl hr
    have hidx : ∀ j, j < k → (cell ec'.decode_index j).toNat < k + n := fun j hj => hloaded.decodes.index_lt hl hj
    rw [← hloaded.maxSize] at hM ⊢
    rw [decodePtr_eq hload hM, Option.isSome_map,
      forUp_congr fun b t _ _ => recoverBlock_eq hidx hl.2 ec'.g_tbls (b * ec'.maxSize) t] at h
    obtain ⟨mem', hloop⟩ := Option.isSome_iff_exists.1 h
    exact windows_inside hM he hs (hl.2 0 he) hloop
  · intro hdvd
    obtain ⟨r, hr, -⟩ := decodePtr_spec hec hM hl hr hs.toStrips hdvd
    rw [hr]
    rfl

/-- **The block loops and the end of a strip.** On strips that end after `L`
bytes, each of the four methods touches no byte past the end when `maxSize`
divides `L`, and only then. -/
theorem block_loops_inside_iff (hk : 0 < k) (hn : 0 < n) (hkn : k + n ≤ 256) (hM : 0 < maxSize)
    (hreach : Reachable maxSize thread_num ec) (hl : ValidList k n err_list) (he : 1 ≤ err_num) (hL : L < 2 ^ 31)
    (hio : ExactStrips mem (in_ ++ out) L) (hmat : ExactStrips mem matrix L) :
    ((encode ec in_ out (k * L) mem).isSome ↔ maxSize ∣ L) ∧
    ((decode ec matrix err_list (k * L) mem).isSome ↔ maxSize ∣ L) ∧
    ((decodePtr ec matrix err_list L mem).isSome ↔ maxSize ∣ L) ∧
    ∃ ec₂, cacheGTbls ec err_list = some (ec₂, true) ∧
      ((cacheDecodePtr ec₂ matrix err_list (k * L) mem).isSome ↔ maxSize ∣ L) := by
  obtain ⟨hec, hmax, -⟩ := hreach.sound
  subst hmax
  have hrec := hl.recoverable hkn hec
  have hdec := decodePtr_inside_iff hec hM hl he hrec hmat
  obtain ⟨ec₁, ec₂, hload, -, hcache, -⟩ := tables_built hec hl hrec
  refine ⟨encode_inside_iff hk hn hM hL hio, ?_, hdec, ec₂, hcache, ?_⟩
  · rw [decode_eq_decodePtr hk hL]
    exact hdec
  · rw [cacheDecodePtr_eq_decodePtr hk hM hl.1 hL hload hcache, Option.isSome_map]
    exact hdec

end

/-- One data strip of three bytes, in blocks of two. -/
theorem block_loops_inside_iff_three : ∃ ec ec₂ : IsaEC 1 1, new default 2 4 = some ec ∧
    ((encode ec (ownBuffers 0 1) (ownBuffers 1 1) (1 * 3) #[#[5, 6, 7], #[0, 0, 0]]).isSome ↔ 2 ∣ 3) ∧
    ((decode ec (ownBuffers 0 2) #v[0] (1 * 3) #[#[5, 6, 7], #[0, 0, 0]]).isSome ↔ 2 ∣ 3) ∧
    ((decodePtr ec (ownBuffers 0 2) #v[0] 3 #[#[5, 6, 7], #[0, 0, 0]]).isSome ↔ 2 ∣ 3) ∧
    cacheGTbls ec #v[0] = some (ec₂, true) ∧
    ((cacheDecodePtr ec₂ (ownBuffers 0 2) #v[0] (1 * 3) #[#[5, 6, 7], #[0, 0, 0]]).isSome ↔ 2 ∣ 3) := by
  obtain ⟨ec, hnew⟩ := new_isSome (default : IsaEC 1 1) 2 4 (by decide)
  obtain ⟨h1, h2, h3, ec₂, h4, h5⟩ := @block_loops_inside_iff 1 1 2 4 1 3 ec #v[0] (ownBuffers 0 2) (ownBuffers 0 1)
    (ownBuffers 1 1) #[#[5, 6, 7], #[0, 0, 0]] (by decide) (by decide) (by decide) (by decide)
    ⟨default, ec, [], hnew, rfl⟩ ⟨by decide, by decide⟩ (by decide) (by decide) (by decide) (by decide)
  exact ⟨ec, ec₂, hnew, h1, h2, h3, h4, h5⟩

/-- Strips of one byte and blocks of two: there is no second byte to encode, and
where there happens to be one, it is overwritten. -/
theorem block_past_end : ∃ ec : IsaEC 1 1, new default 2 4 = some ec ∧
    ExactStrips #[#[5], #[0]] (ownBuffers 0 1 ++ ownBuffers 1 1) 1 ∧
    encode ec (ownBuffers 0 1) (ownBuffers 1 1) (1 * 1) #[#[5], #[0]] = none ∧
    encode ec (ownBuffers 0 1) (ownBuffers 1 1) (1 * 1) #[#[5, 9], #[0, 0]] = some (#[#[5, 9], #[5, 9]], true) := by
  have hcomp : (new (default : IsaEC 1 1) 2 4).map (fun ec =>
      (encode ec (ownBuffers 0 1) (ownBuffers 1 1) (1 * 1) #[#[5], #[0]],
        encode ec (ownBuffers 0 1) (ownBuffers 1 1) (1 * 1) #[#[5, 9], #[0, 0]])) =
      some (none, some (#[#[5, 9], #[5, 9]], true)) := by
    decide +kernel
  obtain ⟨ec, hnew, h⟩ := Option.map_eq_some_iff.1 hcomp
  obtain ⟨h1, h2⟩ := Prod.ext_iff.1 h
  exact ⟨ec, hnew, by decide, h1, h2⟩

end ErasureCode.IsaEC
