import ErasureCode.IsaEC.Blocks

/-!
# Constructor and encoders

* `new_fresh`: a constructed object holds ISA-L's generator matrix, and its
  `g_tbls` is the expansion of the parity rows (`Intact`).
* `encodePtr_spec`, `encode_spec`: both encoders set every byte of the parity
  strips in the blocks they cover to the product of its `g_tbls` row with the
  data bytes at that position, whatever `g_tbls` holds.
-/
namespace ErasureCode.IsaEC

open ErasureCode.Core Isal Matrix

/-- The symbols at position `p` of the strips, as field elements. -/
def word {c : Nat} (mem : Mem) (v : Vector Ptr c) (p : Nat) (r : Nat) : GF256 := ⟨stripByte mem v r p⟩

variable {k n : Nat}

/-- The encode matrix. -/
def gen (ec : IsaEC k n) : Matrix Nat (Fin k) GF256 := rowsOf k ec.encode_matrix

/-- The coefficients of a table. -/
def tableRows (k : Nat) {N : Nat} (tbl : Vector UInt8 N) : Matrix Nat (Fin k) GF256 :=
  fun l j => ⟨coef tbl k l j⟩

/-- The coefficients of a table some rows of which were expanded from `a`. -/
theorem tableRows_init {M N rows a₀ : Nat} {a : Vector UInt8 M} {g g' : Vector UInt8 N}
    (h : ∀ x, cell g' x = if x < rows * k * 32 then tableByte (cell a (a₀ + x / 32)) (x % 32) else cell g x)
    (l : Nat) (j : Fin k) :
    tableRows k g' l j = if l < rows then ⟨cell a (a₀ + (l * k + j))⟩ else tableRows k g l j := by
  have hx : j.val * 32 + l * k * 32 + 1 = 32 * (l * k + j) + 1 := by rw [Nat.mul_add]; omega
  unfold tableRows coef
  rw [hx, h]
  by_cases hl : l < rows
  · have := pos_lt hl j.isLt
    rw [if_pos hl, if_pos (by omega), show (32 * (l * k + j.val) + 1) / 32 = l * k + j.val by omega,
      show (32 * (l * k + j.val) + 1) % 32 = 1 by omega, tableByte_one]
  · have : rows * k ≤ l * k := Nat.mul_le_mul_right k (Nat.not_lt.1 hl)
    rw [if_neg hl, if_neg (by omega)]

/-- The encode matrix is the generator `gf_gen_cauchy1_matrix` makes. -/
def Sound (ec : IsaEC k n) : Prop := ∀ r, r < k + n → ec.gen r = encodeMatrix k r

/-- `g_tbls` is the expansion of rows `k` to `k + n - 1` of the encode matrix. -/
def Intact (ec : IsaEC k n) : Prop :=
  ∀ x, x < n * k * 32 → cell ec.g_tbls x = tableByte (cell ec.encode_matrix (k * k + x / 32)) (x % 32)

/-- What the constructor establishes. -/
structure Fresh (ec : IsaEC k n) (maxSize thread_num : Nat) : Prop where
  sound : Sound ec
  intact : Intact ec
  maxSize_eq : ec.maxSize = maxSize
  thread_num_eq : ec.thread_num = thread_num

theorem new_spec (raw : IsaEC k n) (maxSize thread_num : Nat) (hm : (k + n) * k < 2 ^ 31)
    (ht : n * k * 32 < 2 ^ 31) :
    Returns (new raw maxSize thread_num) fun ec => Fresh ec maxSize thread_num := by
  have hrows : k * k + (k + n - k) * k = (k + n) * k := by
    rw [Nat.add_sub_cancel_left, Nat.add_mul]
  unfold new
  simp only [mulInt_eq hm, mulInt_eq (show n * k < 2 ^ 31 by omega), mulInt_eq ht, Option.bind_eq_bind,
    Option.bind_some]
  refine (gfGenCauchy1Matrix_spec (Nat.le_refl _) (Nat.le_add_right k n) _).bind fun enc henc => ?_
  refine (ecInitTables_spec (by omega) (by rw [Nat.add_sub_cancel_left])).bind fun tbl htbl =>
    returns_some ⟨henc, fun x hx => ?_, rfl, rfl⟩
  rw [htbl, if_pos (by rwa [Nat.add_sub_cancel_left])]

/-- A constructor that returns has done its work. -/
theorem new_fresh {raw ec : IsaEC k n} {maxSize thread_num : Nat}
    (h : new raw maxSize thread_num = some ec) : Fresh ec maxSize thread_num := by
  obtain ⟨_, hm, h1⟩ := Option.bind_eq_some_iff.1 h
  obtain ⟨_, hnk, h2⟩ := Option.bind_eq_some_iff.1 h1
  obtain ⟨_, ht, -⟩ := Option.bind_eq_some_iff.1 h2
  obtain ⟨-, rfl⟩ := mulInt_some hnk
  exact (new_spec raw maxSize thread_num (mulInt_some hm).1 (mulInt_some ht).1).of_eq h

/-- At most 256 strips: the sizes fit. -/
theorem new_isSome (raw : IsaEC k n) (maxSize thread_num : Nat) (h : k + n ≤ 256) :
    ∃ ec, new raw maxSize thread_num = some ec := by
  have h1 : (k + n) * k ≤ 256 * 256 := Nat.mul_le_mul h (by omega)
  have h2 : n * k ≤ 256 * 256 := Nat.mul_le_mul (by omega) (by omega)
  obtain ⟨ec, he, _⟩ := new_spec raw maxSize thread_num (by omega) (by omega)
  exact ⟨ec, he⟩

/-! ## The encoders -/

section
variable {in_ : Vector Ptr k} {out : Vector Ptr n} {mem : Mem} {L B : Nat} (ec : IsaEC k n)

/-- One block of the encoders: from the `k` data to the `n` parity strips. -/
def encodeWindow (in_ : Vector Ptr k) (out : Vector Ptr n) (off : Nat) (mem : Mem) : Option Mem :=
  window ec.maxSize k n ec.g_tbls (in_ ++ out) (fun j => j) (fun l => k + l) off mem

/-- The byte the encoders give parity strip `r` at position `p`. -/
def encodedByte (mem : Mem) (in_ : Vector Ptr k) (out : Vector Ptr n) (r p : Nat) : UInt8 :=
  dotBytes k (coef ec.g_tbls k (r - k)) fun j => stripByte mem (in_ ++ out) j p

/-- The encoder on a filled pointer array. -/
theorem encodeFrag_eq {frag_ptrs : Vector (Option Ptr) (k + n)} {off : Nat}
    (h : ∀ i, i < k + n → slot frag_ptrs i = some ((cell (in_ ++ out) i).add off)) :
    encodeFrag ec (frag_ptrs, mem) = (ec.encodeWindow in_ out off mem).map (Prod.mk frag_ptrs) := by
  unfold encodeFrag encodeWindow window
  rw [ecEncodeData_congr (fun j hj => h j (by omega)) fun l hl => h (k + l) (by omega),
    Option.map_eq_bind]
  rfl

theorem encodePtrBlock_eq {b : Nat} (hb : b * ec.maxSize < 2 ^ 31) (mem : Mem) :
    encodePtrBlock ec in_ out b mem = ec.encodeWindow in_ out (b * ec.maxSize) mem := by
  obtain ⟨a, ha, hslot⟩ := fillPtrs_spec (f := fragPtr in_ out (b * ec.maxSize)) fun i hi =>
    fragPtr_eq in_ out (b * ec.maxSize) hi
  simp only [encodePtrBlock, mulInt_eq hb, ha, Option.bind_eq_bind, Option.bind_some]
  exact ecEncodeData_congr (fun j hj => hslot j (by omega))
    (fun l (hl : l < n) => hslot (k + l) (by omega)) mem

/-- One store into the shared array. -/
theorem storeFrag_spec (in_ : Vector Ptr k) (out : Vector Ptr n) (off : Nat) {i : Nat} (hi : i < k + n)
    (s : Vector (Option Ptr) (k + n) × Mem) :
    Returns (storeFrag in_ out off i s) fun s' => s'.2 = s.2 ∧
      ∀ x, slot s'.1 x = if x = i then some ((cell (in_ ++ out) i).add off) else slot s.1 x := by
  unfold storeFrag
  simp only [fragPtr_eq in_ out off hi, wr_eq _ hi, Option.bind_eq_bind, Option.bind_some]
  exact returns_some ⟨rfl, fun x => slot_upd _ hi _ x⟩

/-- A loop that sets one slot after another. -/
theorem fillSlots_spec {body : Nat → Vector (Option Ptr) (k + n) × Mem → Option (Vector (Option Ptr) (k + n) × Mem)}
    {g : Nat → Ptr} (s : Vector (Option Ptr) (k + n) × Mem)
    (hbody : ∀ i t, i < k + n → Returns (body i t) fun t' => t'.2 = t.2 ∧
      ∀ x, slot t'.1 x = if x = i then some (g i) else slot t.1 x) :
    Returns (forUp 0 (k + n) s body) fun s' => s'.2 = s.2 ∧ ∀ i, i < k + n → slot s'.1 i = some (g i) := by
  refine (forUp_writes (fun s : Vector (Option Ptr) (k + n) × Mem => slot s.1) (fun i x => x = i)
    (fun i => some (g i)) (fun t => t.2 = s.2) (Nat.zero_le _) rfl fun i t _ hi ht _ _ => ?_).mono
    fun s' ⟨h, hw, _⟩ => ⟨h, fun i hi => hw i i (Nat.zero_le _) hi rfl⟩
  refine (hbody i t hi).mono fun t' ⟨hm, hs⟩ => ⟨hm.trans ht, fun x hx => ?_, fun x hx => ?_⟩
  · rw [hs x, if_pos hx, hx]
  · rw [hs x, if_neg hx]

/-- The stores into the shared array, one after another. -/
theorem storeFrags_spec (off : Nat) (s : Vector (Option Ptr) (k + n) × Mem) :
    Returns (forUp 0 (k + n) s (storeFrag in_ out off)) fun s' => s'.2 = s.2 ∧
      ∀ i, i < k + n → slot s'.1 i = some ((cell (in_ ++ out) i).add off) :=
  fillSlots_spec s fun _ t hi => storeFrag_spec in_ out off hi t

/-- `B` blocks of the encoders. -/
theorem encodeBlocks_spec (hs : Strips mem (in_ ++ out) L) (hL : B * ec.maxSize ≤ L) :
    Returns (forUp 0 B mem fun b t => ec.encodeWindow in_ out (b * ec.maxSize) t) fun mem' =>
      Rewritten mem mem' (in_ ++ out) (fun r => k ≤ r) (B * ec.maxSize) (ec.encodedByte mem in_ out) := by
  refine (blocks_spec (ec.encodedByte mem in_ out) (fun j => j) (fun l => k + l) hs
    (fun j hj => by omega) (fun l hl => by omega) (fun j hj l _ => by omega) (Nat.le_refl _) hL
    fun l _ p _ => ?_).mono fun mem' h => h.congrSet fun r hr => ⟨?_, fun h => ?_⟩
  · rw [encodedByte, Nat.add_sub_cancel_left]
  · rintro ⟨l, _, rfl⟩
    exact Nat.le_add_right k l
  · exact ⟨r - k, by omega, Nat.add_sub_cancel' h⟩

/-- The loop of `encode_ptr`, when its `int` products fit. -/
theorem encodePtr_eq {size : Nat} (hM : 0 < ec.maxSize) (hB : (toInt (size / ec.maxSize)).toNat = B)
    (hint : ∀ b, b < B → b * ec.maxSize < 2 ^ 31) :
    encodePtr ec in_ out size mem =
      (forUp 0 B mem fun b t => ec.encodeWindow in_ out (b * ec.maxSize) t).map fun m => (m, true) := by
  unfold encodePtr
  rw [divSize_eq hM, Option.bind_eq_bind, Option.bind_some]
  generalize toInt (size / ec.maxSize) = iter_num at hB
  subst hB
  simp only [forUp_congr fun b t _ hb => encodePtrBlock_eq ec (hint b hb) t]
  rw [Option.map_eq_bind]
  rfl

theorem encodePtr_spec {size : Nat} (hM : 0 < ec.maxSize) (hs : Strips mem (in_ ++ out) L)
    (hB : (toInt (size / ec.maxSize)).toNat = B) (hL : B * ec.maxSize ≤ L)
    (hint : ∀ b, b < B → b * ec.maxSize < 2 ^ 31) :
    Returns (encodePtr ec in_ out size mem) fun r => r.2 = true ∧
      Rewritten mem r.1 (in_ ++ out) (fun r => k ≤ r) (B * ec.maxSize) (ec.encodedByte mem in_ out) := by
  obtain ⟨mem', he, h⟩ := encodeBlocks_spec ec hs hL
  rw [encodePtr_eq ec hM hB hint, he]
  exact returns_some ⟨rfl, h⟩

/-- A call that returns has divided, and its `int` products have fit. -/
theorem encodePtr_fits {size : Nat} {r : Mem × Bool} (h : encodePtr ec in_ out size mem = some r) :
    0 < ec.maxSize ∧ ∀ b, b < (toInt (size / ec.maxSize)).toNat → b * ec.maxSize < 2 ^ 31 := by
  have hM : 0 < ec.maxSize := by
    by_contra hc
    rw [encodePtr, divSize, if_pos (by omega)] at h
    cases h
  unfold encodePtr at h
  rw [divSize_eq hM, Option.bind_eq_bind, Option.bind_some] at h
  obtain ⟨mem', hloop, -⟩ := Option.bind_eq_some_iff.1 h
  refine ⟨hM, forUp_inv (fun i _ => ∀ b, b < i → b * ec.maxSize < 2 ^ 31) (Nat.zero_le _)
    (fun b hb => by omega) (fun i t t' _ _ hi hbody b hb => ?_) hloop⟩
  rcases Nat.lt_or_eq_of_le (Nat.le_of_lt_succ hb) with hlt | rfl
  · exact hi b hlt
  · obtain ⟨_, hmul, -⟩ := Option.bind_eq_some_iff.1 hbody
    exact (mulInt_some hmul).1

/-- `B` blocks below 2^31 bytes: the count and the offsets fit. -/
theorem blocks_fit {M : Nat} (hM : 0 < M) (hlt : B * M < 2 ^ 31) :
    (toInt (B * M / M)).toNat = B ∧ ∀ b, b < B → b * M < 2 ^ 31 := by
  have hB : B ≤ B * M := Nat.le_mul_of_pos_right B hM
  refine ⟨by rw [Nat.mul_div_cancel _ hM, toInt_eq (by omega), Int.toNat_natCast], fun b hb => ?_⟩
  have := Nat.mul_le_mul_right M (Nat.le_of_lt hb)
  omega

/-- A strip length that is a multiple of the block size. -/
theorem encodePtr_mul {size : Nat} (hM : 0 < ec.maxSize) (hs : Strips mem (in_ ++ out) size)
    (hdvd : ec.maxSize ∣ size) (hlt : size < 2 ^ 31) :
    Returns (encodePtr ec in_ out size mem) fun r => r.2 = true ∧
      Rewritten mem r.1 (in_ ++ out) (fun r => k ≤ r) size (ec.encodedByte mem in_ out) := by
  obtain ⟨B, rfl⟩ := hdvd
  rw [Nat.mul_comm] at hs hlt ⊢
  obtain ⟨hB, hint⟩ := blocks_fit hM hlt
  exact encodePtr_spec ec hM hs hB (Nat.le_refl _) hint

/-- The loop of `encode`, over the shared array. Its size argument counts all `k`
strips. -/
theorem encode_rounds {size : Nat} (hk : 0 < k) (hM : 0 < ec.maxSize) (hlt : size < 2 ^ 31) :
    encode ec in_ out (k * size) mem =
      (forUp 0 ((size + ec.maxSize - 1) / ec.maxSize) (Vector.replicate (k + n) none, mem) fun b s => do
        let s ← forUp 0 (k + n) s (storeFrag in_ out (b * ec.maxSize))
        encodeFrag ec s).map fun s => (s.2, true) := by
  unfold encode
  rw [divSize_eq hk, Option.bind_eq_bind, Option.bind_some, Nat.mul_div_cancel_left _ hk, toInt_eq hlt]
  simp only [toSize_eq (show size < 2 ^ 64 by omega), forStep_eq hM]
  rw [Option.map_eq_bind]
  rfl

theorem encode_eq (hk : 0 < k) (hM : 0 < ec.maxSize) (hlt : B * ec.maxSize < 2 ^ 31) :
    encode ec in_ out (k * (B * ec.maxSize)) mem =
      (forUp 0 B (Vector.replicate (k + n) none, mem) fun b s => do
        let s ← forUp 0 (k + n) s (storeFrag in_ out (b * ec.maxSize))
        encodeFrag ec s).map fun s => (s.2, true) := by
  rw [encode_rounds ec hk hM hlt, ceil_mul hM]

/-- With the rounds in order, the shared array comes to one window after the
other. -/
theorem encode_windows {size : Nat} (hk : 0 < k) (hM : 0 < ec.maxSize) (hlt : size < 2 ^ 31) :
    encode ec in_ out (k * size) mem =
      (forUp 0 ((size + ec.maxSize - 1) / ec.maxSize) mem fun b t =>
        ec.encodeWindow in_ out (b * ec.maxSize) t).map fun m => (m, true) := by
  have hround : ∀ b (s : Vector (Option Ptr) (k + n) × Mem), 0 ≤ b → b < (size + ec.maxSize - 1) / ec.maxSize →
      ((do
        let s ← forUp 0 (k + n) s (storeFrag in_ out (b * ec.maxSize))
        encodeFrag ec s).map Prod.snd) = ec.encodeWindow in_ out (b * ec.maxSize) s.2 := by
    intro b s _ _
    obtain ⟨s', hs', hmem, hslot⟩ := storeFrags_spec (b * ec.maxSize) s
    rw [hs', Option.bind_eq_bind, Option.bind_some, encodeFrag_eq ec hslot, hmem]
    simp
  rw [encode_rounds ec hk hM hlt, ← forUp_map Prod.snd (s := (Vector.replicate (k + n) none, mem)) hround,
    Option.map_map]
  rfl

/-- On strips of whole blocks `encode` does what `encode_ptr` does. -/
theorem encode_eq_encodePtr {size : Nat} (hk : 0 < k) (hM : 0 < ec.maxSize) (hdvd : ec.maxSize ∣ size)
    (hlt : size < 2 ^ 31) : encode ec in_ out (k * size) mem = encodePtr ec in_ out size mem := by
  obtain ⟨B, rfl⟩ := hdvd
  rw [Nat.mul_comm ec.maxSize] at hlt ⊢
  obtain ⟨hB, hint⟩ := blocks_fit hM hlt
  rw [encode_windows ec hk hM hlt, encodePtr_eq ec hM hB hint, ceil_mul hM]

theorem encode_mul {size : Nat} (hk : 0 < k) (hM : 0 < ec.maxSize) (hs : Strips mem (in_ ++ out) size)
    (hdvd : ec.maxSize ∣ size) (hlt : size < 2 ^ 31) :
    Returns (encode ec in_ out (k * size) mem) fun r => r.2 = true ∧
      Rewritten mem r.1 (in_ ++ out) (fun r => k ≤ r) size (ec.encodedByte mem in_ out) := by
  rw [encode_eq_encodePtr ec hk hM hdvd hlt]
  exact encodePtr_mul ec hM hs hdvd hlt

end

end ErasureCode.IsaEC
