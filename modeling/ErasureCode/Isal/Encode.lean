import ErasureCode.Core.Memory
import ErasureCode.Isal.Matrix

/-!
# ISA-L's encoding tables and encoder

`ec_init_tables` expands each coefficient to 32 bytes, its products with the
low and the high nibbles (`gf_vect_mul_init`); byte 1 is the coefficient
itself, the only byte `ec_encode_data_base` reads
(`lib/isa-l/erasure_code/ec_base.c:35-45,168-202,301-316`).

* `ecInitTables_spec`: byte `x` of the table is byte `x % 32` of the expansion
  of coefficient `x / 32`. Expanding more rows than the table has room for is a
  fault (`ecInitTables_fault`).
* `ecEncodeData_spec`: every destination byte becomes the product of its table
  row with the source bytes at the same offset, and no other byte changes,
  provided no source byte is a destination byte.
-/
namespace ErasureCode.Isal

open ErasureCode.Core

/-! ## Tables -/

/-- The four 64-bit words `gf_vect_mul_init` stores.
mirrors lib/isa-l/erasure_code/ec_base.c:168-202 -/
def gfVectMulWords (c : UInt8) : Vector UInt64 4 :=
  let c2 := mulTwo c
  let c4 := mulTwo c2
  let c8 := mulTwo c4
  let v1 := c.toUInt64 * 0x0100010001000100
  let v2 := c2.toUInt64 * 0x0101000001010000
  let v4 := c4.toUInt64 * 0x0101010100000000
  let v8 := c8.toUInt64 * 0x0101010101010101
  let v4 := v1 ^^^ v2 ^^^ v4
  let c17 := mulTwo c8
  let c18 := mulTwo c17
  let c20 := mulTwo c18
  let c24 := mulTwo c20
  let v10 := c17.toUInt64 * 0x0100010001000100
  let v20 := c18.toUInt64 * 0x0101000001010000
  let v40 := c20.toUInt64 * 0x0101010100000000
  let v80 := c24.toUInt64 * 0x0101010101010101
  let v40 := v10 ^^^ v20 ^^^ v40
  #v[v4, v8 ^^^ v4, v40, v80 ^^^ v40]

/-- Byte `b` of the words, stored in little-endian order. -/
def tableByte (c : UInt8) (b : Nat) : UInt8 :=
  (cell (gfVectMulWords c) (b / 8) >>> (UInt64.ofNat (8 * (b % 8)))).toUInt8

/-- The 32 bytes of `c` at `tbl + pos`.
mirrors lib/isa-l/erasure_code/ec_base.c:168-202 -/
def gfVectMulInit {N : Nat} (c : UInt8) (tbl : Vector UInt8 N) (pos : Nat) : Option (Vector UInt8 N) :=
  forUp 0 32 tbl fun b tbl => wr tbl (pos + b) (tableByte c b)

/-- One coefficient: `gf_vect_mul_init(*a++, g_tbls); g_tbls += 32;`, with the
positions of the two pointers.
mirrors lib/isa-l/erasure_code/ec_base.c:41-42 -/
def initTable {M N : Nat} (a : Vector UInt8 M) (s : Vector UInt8 N × Nat × Nat) :
    Option (Vector UInt8 N × Nat × Nat) := do
  let g_tbls ← gfVectMulInit (← a[s.2.1]?) s.1 s.2.2
  return (g_tbls, s.2.1 + 1, s.2.2 + 32)

/-- `&a[a₀]` is the matrix, stored row by row.
mirrors lib/isa-l/erasure_code/ec_base.c:35-45 -/
def ecInitTables {M N : Nat} (k rows : Nat) (a : Vector UInt8 M) (a₀ : Nat) (g_tbls : Vector UInt8 N) :
    Option (Vector UInt8 N) := do
  let s ← forUp 0 rows (g_tbls, a₀, 0) fun _ s => forUp 0 k s fun _ s => initTable a s
  return s.1

set_option maxRecDepth 4000 in
theorem tableByte_one_fin : ∀ c : Fin 256, tableByte (UInt8.ofNat c) 1 = UInt8.ofNat c := by
  decide +kernel

/-- The second byte of an expansion is the coefficient. -/
theorem tableByte_one (c : UInt8) : tableByte c 1 = c := by
  simpa using tableByte_one_fin ⟨c.toNat, c.toNat_lt⟩

theorem gfVectMulInit_spec {N : Nat} (c : UInt8) (tbl : Vector UInt8 N) {pos : Nat} (h : pos + 32 ≤ N) :
    Returns (gfVectMulInit c tbl pos) fun tbl' => ∀ x, cell tbl' x =
      if pos ≤ x ∧ x < pos + 32 then tableByte c (x - pos) else cell tbl x := by
  refine (forUp_writes (fun b : Vector UInt8 N => cell b) (fun b x => x = pos + b)
    (fun x => tableByte c (x - pos)) (fun _ => True) (Nat.zero_le _) trivial ?_).mono
    fun tbl' ⟨_, hw, hf⟩ x => ?_
  · intro b t _ hb _ _ _
    have hp : pos + b < N := by omega
    rw [wr_eq _ hp]
    refine returns_some ⟨trivial, ?_, fun x hx => cell_upd_ne _ (Ne.symm hx) _⟩
    rintro x rfl
    rw [cell_upd_self _ hp, Nat.add_sub_cancel_left]
  · split
    · exact hw x (x - pos) (Nat.zero_le _) (by omega) (by omega)
    · exact hf x fun i _ hi e => by omega

/-- The first `t` coefficients are expanded. -/
def TablesDone {M N : Nat} (a : Vector UInt8 M) (a₀ : Nat) (g : Vector UInt8 N) (t : Nat)
    (s : Vector UInt8 N × Nat × Nat) : Prop :=
  s.2.1 = a₀ + t ∧ s.2.2 = 32 * t ∧
    ∀ x, cell s.1 x = if x < 32 * t then tableByte (cell a (a₀ + x / 32)) (x % 32) else cell g x

theorem initTable_spec {M N : Nat} {a : Vector UInt8 M} {a₀ t : Nat} {g : Vector UInt8 N}
    {s : Vector UInt8 N × Nat × Nat} (ha : a₀ + t < M) (hg : 32 * (t + 1) ≤ N)
    (h : TablesDone a a₀ g t s) : Returns (initTable a s) (TablesDone a a₀ g (t + 1)) := by
  obtain ⟨b, ia, ig⟩ := s
  obtain ⟨rfl, rfl, hb⟩ := h
  unfold initTable
  rw [rd_eq a ha]
  refine (gfVectMulInit_spec _ b (show 32 * t + 32 ≤ N by omega)).bind fun b' hb' =>
    returns_some ⟨rfl, rfl, fun x => ?_⟩
  rw [hb' x, hb x]
  by_cases h1 : x < 32 * t
  · rw [if_neg (by omega), if_pos h1, if_pos (by omega)]
  · by_cases h2 : x < 32 * (t + 1)
    · rw [if_pos (by omega), if_pos h2, show x / 32 = t by omega, show x % 32 = x - 32 * t by omega]
    · rw [if_neg (by omega), if_neg h1, if_neg h2]

theorem ecInitTables_spec {M N k rows a₀ : Nat} {a : Vector UInt8 M} {g : Vector UInt8 N}
    (ha : a₀ + rows * k ≤ M) (hg : rows * k * 32 ≤ N) :
    Returns (ecInitTables k rows a a₀ g) fun g' => ∀ x, cell g' x =
      if x < rows * k * 32 then tableByte (cell a (a₀ + x / 32)) (x % 32) else cell g x := by
  unfold ecInitTables
  refine (Returns.forUp (fun i => TablesDone a a₀ g (i * k)) (Nat.zero_le rows)
    ⟨by simp, by simp, fun x => by simp⟩ fun i s _ hi hs => ?_).bind fun s ⟨_, _, hs⟩ =>
      returns_some fun x => by rw [hs x, Nat.mul_comm 32]
  rw [Nat.succ_mul]
  refine Returns.forUp (fun j => TablesDone a a₀ g (i * k + j)) (Nat.zero_le k) hs
    fun j s _ hj hs => ?_
  have hp := pos_lt hi hj
  exact initTable_spec (t := i * k + j) (by omega) (by omega) hs

/-- More rows than the table has room for: the expansion runs out of it. -/
theorem ecInitTables_fault {M N k rows a₀ : Nat} {a : Vector UInt8 M} {g : Vector UInt8 N}
    (hk : 0 < k) (hg : N < rows * k * 32) : ecInitTables k rows a a₀ g = none := by
  cases h : ecInitTables k rows a a₀ g with
  | none => rfl
  | some g' =>
    obtain ⟨s, hs, -⟩ := Option.bind_eq_some_iff.1 h
    -- a coefficient is expanded only inside the table
    have hstep : ∀ t (s s' : Vector UInt8 N × Nat × Nat), s.2.2 = 32 * t →
        initTable a s = some s' → s'.2.2 = 32 * (t + 1) ∧ 32 * (t + 1) ≤ N := by
      intro t s s' ht he
      obtain ⟨c, -, he⟩ := Option.bind_eq_some_iff.1 he
      obtain ⟨b, hb, he⟩ := Option.bind_eq_some_iff.1 he
      cases he
      refine ⟨by simp only; omega, ?_⟩
      by_contra hlt
      have hlast : forUp 0 32 s.1 (fun b tbl => wr tbl (s.2.2 + b) (tableByte c b)) = some b := hb
      have := forUp_inv (fun i _ => i = 0 ∨ s.2.2 + i ≤ N) (Nat.zero_le 32) (.inl rfl)
        (fun i u u' _ _ _ hu => .inr (by
          by_contra hc
          rw [wr_none _ (by omega)] at hu
          cases hu)) hlast
      omega
    have hall := forUp_inv (fun i (s : Vector UInt8 N × Nat × Nat) => s.2.2 = 32 * (i * k) ∧
      (i * k = 0 ∨ 32 * (i * k) ≤ N)) (Nat.zero_le rows) ⟨by simp, by simp⟩ (fun i u u' _ _ hu hb => by
        have := forUp_inv (fun j (s : Vector UInt8 N × Nat × Nat) => s.2.2 = 32 * (i * k + j) ∧
          (j = 0 ∨ 32 * (i * k + j) ≤ N)) (Nat.zero_le k) ⟨hu.1, .inl rfl⟩
          (fun j v v' _ _ hv hb => ⟨(hstep _ v v' hv.1 hb).1, .inr (hstep _ v v' hv.1 hb).2⟩) hb
        have e : (i + 1) * k = i * k + k := Nat.succ_mul i k
        rw [e]
        exact ⟨this.1, this.2.elim (fun h => by omega) .inr⟩) hs
    omega

/-! ## Encoding -/

/-- The product of a row of coefficients with a column of bytes. -/
def dotBytes (srcs : Nat) (c x : Nat → UInt8) : UInt8 :=
  (List.range srcs).foldl (fun s j => s ^^^ gfMul (x j) (c j)) 0

/-- The coefficient `ec_encode_data_base` reads for row `l`, source `j`. -/
def coef {N : Nat} (v : Vector UInt8 N) (srcs l j : Nat) : UInt8 :=
  cell v (j * 32 + l * srcs * 32 + 1)

/-- One destination byte: `dest[l][i]` from the source bytes in `mem`.
mirrors lib/isa-l/erasure_code/ec_base.c:309-313 -/
def encodeByte {N : Nat} (srcs : Nat) (v : Vector UInt8 N) (src dest : Nat → Option Ptr) (l i : Nat)
    (mem : Mem) : Option Mem := do
  let s ← forUp 0 srcs 0 fun j s => do
    let x ← load mem ((← src j).add i)
    return s ^^^ gfMul x (← v[j * 32 + l * srcs * 32 + 1]?)
  store mem ((← dest l).add i) s

/-- `src` and `dest` are arrays of pointers.
mirrors lib/isa-l/erasure_code/ec_base.c:301-316 -/
def ecEncodeData {N : Nat} (len srcs dests : Nat) (v : Vector UInt8 N) (src dest : Nat → Option Ptr)
    (mem : Mem) : Option Mem :=
  forUp 0 dests mem fun l mem => forUp 0 len mem fun i mem => encodeByte srcs v src dest l i mem

theorem dotBytes_succ (n : Nat) (c x : Nat → UInt8) :
    dotBytes (n + 1) c x = dotBytes n c x ^^^ gfMul (x n) (c n) := by
  simp [dotBytes, List.range_succ]

/-- The product over the field. -/
theorem mk_dotBytes (n : Nat) (c x : Nat → UInt8) :
    (⟨dotBytes n c x⟩ : GF256) = ∑ j : Fin n, ⟨c j⟩ * ⟨x j⟩ := by
  induction n with
  | zero => rfl
  | succ n ih => rw [dotBytes_succ, Fin.sum_univ_castSucc, GF256.mk_xor, ih, GF256.mk_gfMul,
      mul_comm (⟨x n⟩ : GF256)]; rfl

/-- Only the products matter. -/
theorem dotBytes_congr_mul {n : Nat} {c c' x x' : Nat → UInt8}
    (h : ∀ j, j < n → gfMul (x j) (c j) = gfMul (x' j) (c' j)) : dotBytes n c x = dotBytes n c' x' := by
  induction n with
  | zero => rfl
  | succ n ih => rw [dotBytes_succ, dotBytes_succ, ih fun j hj => h j (by omega), h n (by omega)]

theorem dotBytes_congr {n : Nat} {c c' x x' : Nat → UInt8} (hc : ∀ j, j < n → c j = c' j)
    (hx : ∀ j, j < n → x j = x' j) : dotBytes n c x = dotBytes n c' x' :=
  dotBytes_congr_mul fun j hj => by rw [hc j hj, hx j hj]

/-- Two columns that differ at `j₀` only. -/
theorem dotBytes_cancel {n j₀ : Nat} {c x x' : Nat → UInt8} (hj : j₀ < n) (hx : ∀ j, j ≠ j₀ → x j = x' j)
    (h : dotBytes n c x = dotBytes n c x') : gfMul (x j₀) (c j₀) = gfMul (x' j₀) (c j₀) := by
  induction n with
  | zero => omega
  | succ n ih =>
    rw [dotBytes_succ, dotBytes_succ] at h
    by_cases hn : j₀ = n
    · subst hn
      rw [dotBytes_congr (fun _ _ => rfl) fun j hj => hx j (Nat.ne_of_lt hj)] at h
      exact (UInt8.xor_right_inj _).1 h
    · rw [hx n (Ne.symm hn)] at h
      exact ih (by omega) ((UInt8.xor_left_inj _).1 h)

theorem coef_lt {N srcs dests l j : Nat} (hv : dests * srcs * 32 ≤ N) (hl : l < dests) (hj : j < srcs) :
    j * 32 + l * srcs * 32 + 1 < N := by
  have := pos_lt hl hj
  omega

theorem encodeByte_congr {N srcs l : Nat} {v : Vector UInt8 N} {src src' dest dest' : Nat → Option Ptr}
    (hs : ∀ j, j < srcs → src j = src' j) (hd : dest l = dest' l) (i : Nat) (mem : Mem) :
    encodeByte srcs v src dest l i mem = encodeByte srcs v src' dest' l i mem := by
  unfold encodeByte
  rw [hd]
  refine congrArg (· >>= _) (forUp_congr fun j s _ hj => ?_)
  rw [hs j hj]

/-- The encoder looks at the first `srcs` and `dests` pointers only. -/
theorem ecEncodeData_congr {N len srcs dests : Nat} {v : Vector UInt8 N} {src src' dest dest' : Nat → Option Ptr}
    (hs : ∀ j, j < srcs → src j = src' j) (hd : ∀ l, l < dests → dest l = dest' l) (mem : Mem) :
    ecEncodeData len srcs dests v src dest mem = ecEncodeData len srcs dests v src' dest' mem :=
  forUp_congr fun l _ _ hl => forUp_congr fun i t _ _ => encodeByte_congr hs (hd l hl) i t

/-- Of the table it looks at the expansions of `dests` rows only. -/
theorem ecEncodeData_congrTable {N N' len srcs dests : Nat} {v : Vector UInt8 N} {v' : Vector UInt8 N'}
    {src dest : Nat → Option Ptr} (hv : dests * srcs * 32 ≤ N) (hv' : dests * srcs * 32 ≤ N')
    (h : ∀ x, x < dests * srcs * 32 → cell v x = cell v' x) (mem : Mem) :
    ecEncodeData len srcs dests v src dest mem = ecEncodeData len srcs dests v' src dest mem := by
  refine forUp_congr fun l _ _ hl => forUp_congr fun i t _ _ => ?_
  refine congrArg (· >>= _) (forUp_congr fun j s _ hj => ?_)
  have := coef_lt (Nat.le_refl _) hl hj
  rw [rd_eq v (by omega), rd_eq v' (by omega), h _ this]

/-- The encoder with its coefficients and pointers at hand: it accesses the bytes
of the sources and destinations, and nothing else. -/
def encodeRows (len srcs dests : Nat) (c : Nat → Nat → UInt8) (src dest : Nat → Ptr) (mem : Mem) : Option Mem :=
  forUp 0 dests mem fun l mem => forUp 0 len mem fun i mem => do
    let s ← forUp 0 srcs 0 fun j s => do
      return s ^^^ gfMul (← load mem ((src j).add i)) (c l j)
    store mem ((dest l).add i) s

/-- A table with room for `dests` rows is not read outside. -/
theorem ecEncodeData_eq_rows {N len srcs dests : Nat} {v : Vector UInt8 N} {src dest : Nat → Option Ptr}
    {sp dp : Nat → Ptr} (hv : dests * srcs * 32 ≤ N) (hsrc : ∀ j, j < srcs → src j = some (sp j))
    (hdest : ∀ l, l < dests → dest l = some (dp l)) (mem : Mem) :
    ecEncodeData len srcs dests v src dest mem = encodeRows len srcs dests (coef v srcs) sp dp mem := by
  refine forUp_congr fun l _ _ hl => forUp_congr fun i t _ _ => ?_
  unfold encodeByte
  rw [hdest l hl]
  refine congrArg (· >>= _) (forUp_congr fun j s _ hj => ?_)
  rw [hsrc j hj, rd_eq v (coef_lt hv hl hj)]
  rfl

/-- `srcs` sources and `dests` destinations of `L` bytes each, no source byte
being a destination byte. -/
structure Windows (mem : Mem) (srcs dests L : Nat) (sp dp : Nat → Ptr) : Prop where
  src : ∀ j, j < srcs → Valid mem (sp j) L
  dest : ∀ l, l < dests → Valid mem (dp l) L
  disj : ∀ j, j < srcs → ∀ l, l < dests → ∀ i, i < L → ∀ i', i' < L → (sp j).add i ≠ (dp l).add i'

section
variable {N : Nat} {v : Vector UInt8 N} {srcs dests : Nat} {src dest : Nat → Option Ptr}
  {sp dp : Nat → Ptr}

theorem encodeByte_spec (sp dp : Nat → Ptr) (i : Nat) (mem : Mem) (hv : dests * srcs * 32 ≤ N) (hsrc : ∀ j, j < srcs → src j = some (sp j))
    {l : Nat} (hl : l < dests) (hdest : dest l = some (dp l))
    (hrd : ∀ j, j < srcs → (load mem ((sp j).add i)).isSome) (hwr : (load mem ((dp l).add i)).isSome) :
    Returns (encodeByte srcs v src dest l i mem) fun mem' =>
      Written mem mem' (fun q => q = (dp l).add i) fun _ =>
        dotBytes srcs (coef v srcs l) fun j => byteAt mem ((sp j).add i) := by
  unfold encodeByte
  have hsum : Returns (forUp 0 srcs 0 fun j s => do
      let x ← load mem ((← src j).add i)
      return s ^^^ gfMul x (← v[j * 32 + l * srcs * 32 + 1]?)) fun s =>
        s = dotBytes srcs (coef v srcs l) fun j => byteAt mem ((sp j).add i) := by
    refine Returns.forUp (fun n s => s = dotBytes n (coef v srcs l) fun j => byteAt mem ((sp j).add i))
      (Nat.zero_le _) rfl fun j s _ hj hs => ?_
    simp only [hsrc j hj, load_eq (hrd j hj), rd_eq v (coef_lt hv hl hj), Option.bind_eq_bind,
      Option.bind_some]
    exact returns_some (by rw [dotBytes_succ, hs]; rfl)
  refine hsum.bind fun s hs => ?_
  subst hs
  simp only [hdest, Option.bind_eq_bind, Option.bind_some]
  exact (store_spec hwr _).mono fun mem' ⟨hs, hl⟩ =>
    ⟨hs, fun q hq => by rw [hl, if_pos hq], fun q hq => by rw [hl, if_neg hq]⟩

/-- A call that returns has had room for `len` bytes in every destination. -/
theorem ecEncodeData_accessed {len : Nat} {mem mem' : Mem} (hdest : ∀ l, l < dests → dest l = some (dp l))
    (h : ecEncodeData len srcs dests v src dest mem = some mem') :
    Accessed mem mem' fun q => ∃ l, 0 ≤ l ∧ l < dests ∧ ∃ i, 0 ≤ i ∧ i < len ∧ q = (dp l).add i := by
  refine forUp_accessed (Nat.zero_le _) (fun l t t' _ hl hloop => ?_) h
  refine forUp_accessed (Nat.zero_le _) (fun i u u' _ _ hbyte => ?_) hloop
  obtain ⟨s, -, hstore⟩ := Option.bind_eq_some_iff.1 hbyte
  rw [hdest l hl] at hstore
  exact store_accessed hstore

/-- The bytes `lo ≤ i < hi` of the destinations. -/
def DestCells (dests lo hi : Nat) (dp : Nat → Ptr) (q : Ptr) : Prop :=
  ∃ l, l < dests ∧ ∃ i, lo ≤ i ∧ i < hi ∧ q = (dp l).add i

/-- `T` gives the destination bytes `lo ≤ i < hi` the products of the table
rows with the source bytes in `mem`. -/
def Target (v : Vector UInt8 N) (srcs dests lo hi : Nat) (sp dp : Nat → Ptr) (mem : Mem)
    (T : Ptr → UInt8) : Prop :=
  ∀ l, l < dests → ∀ i, lo ≤ i → i < hi →
    T ((dp l).add i) = dotBytes srcs (coef v srcs l) fun j => byteAt mem ((sp j).add i)

/-- `ec_encode_data_base` on the window of `len` bytes at offset `off`. -/
theorem ecEncodeData_spec (hv : dests * srcs * 32 ≤ N) {L off len : Nat} {mem : Mem}
    (hsrc : ∀ j, j < srcs → src j = some ((sp j).add off))
    (hdest : ∀ l, l < dests → dest l = some ((dp l).add off)) (hw : Windows mem srcs dests L sp dp)
    (hL : off + len ≤ L) {T : Ptr → UInt8} (hT : Target v srcs dests off (off + len) sp dp mem T) :
    Returns (ecEncodeData len srcs dests v src dest mem) fun mem' =>
      Written mem mem' (DestCells dests off (off + len) dp) T := by
  unfold ecEncodeData
  refine (forUp_written (W := fun l q => ∃ i, i < len ∧ q = (dp l).add (off + i)) (T := T)
    (Nat.zero_le dests) fun l t _ hl ht => ?_).mono fun t ht => ht.congr fun q => ⟨?_, ?_⟩
  · refine (forUp_written (W := fun i q => q = (dp l).add (off + i)) (T := T) (Nat.zero_le len)
      fun i u _ hi hu => ?_).mono fun u hu => hu.congr fun q => ⟨?_, ?_⟩
    · -- the sources are as they were in `mem`: only destination bytes were written
      have hsame : ∀ j, j < srcs → byteAt u ((sp j).add (off + i)) = byteAt mem ((sp j).add (off + i)) := by
        intro j hj
        rw [hu.byteAt_frame, ht.byteAt_frame]
        · rintro ⟨l', _, hl', i', hi', e⟩
          exact hw.disj j hj l' (by omega) _ (by omega) _ (by omega) e
        · rintro ⟨i', _, hi', e⟩
          exact hw.disj j hj l hl _ (by omega) _ (by omega) e
      have hb := encodeByte_spec (v := v) (fun j => (sp j).add off) (fun l => (dp l).add off) i u hv
        hsrc hl (hdest l hl)
        (fun j hj => by
          rw [Ptr.add_add]
          exact hu.isSome (ht.isSome (hw.src j hj _ (by omega))))
        (by rw [Ptr.add_add]; exact hu.isSome (ht.isSome (hw.dest l hl _ (by omega))))
      simp only [Ptr.add_add] at hb
      refine hb.mono fun u' hu' => hu'.congrVal ?_
      rintro q rfl
      rw [hT l hl _ (by omega) (by omega)]
      exact dotBytes_congr (fun _ _ => rfl) hsame
    · rintro ⟨i, _, hi, e⟩
      exact ⟨i, hi, e⟩
    · rintro ⟨i, hi, e⟩
      exact ⟨i, Nat.zero_le _, hi, e⟩
  · rintro ⟨l, _, hl, i, hi, rfl⟩
    exact ⟨l, hl, off + i, by omega, by omega, rfl⟩
  · rintro ⟨l, hl, i, h1, h2, rfl⟩
    exact ⟨l, Nat.zero_le _, hl, i - off, by omega, by rw [Nat.add_sub_cancel' h1]⟩

end

end ErasureCode.Isal
