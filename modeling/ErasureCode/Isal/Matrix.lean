import ErasureCode.Core.Buffer
import ErasureCode.Core.GaussJordan
import ErasureCode.Core.Mds
import ErasureCode.Isal.Gf

/-!
# ISA-L's matrices

`gf_gen_cauchy1_matrix` and `gf_invert_matrix`
(`lib/isa-l/erasure_code/ec_base.c:92-163`) on matrices stored row by row in
byte arrays. `matOf R C a` reads the first `R * C` bytes of `a` as a matrix
over GF(2^8).

* `gfGenCauchy1Matrix_spec`: the generated array is `encodeMatrix`, identity
  rows on top of `gf_inv(i ^ j)`; for at most 256 rows it is a systematic
  Cauchy generator (`encodeMatrix_eq_systematic`,
  `encodeMatrix_isUnit`).
* `gfInvertMatrix_spec`: 0 and the inverse when the input is invertible, -1
  otherwise. The three loops of one round are the three row operations of
  `GaussJordan` on both arrays at once.
-/
namespace ErasureCode.Isal

open ErasureCode.Core

/-- Row `r` of the matrix with `C` columns stored in `a`. -/
def rowsOf {N : Nat} (C : Nat) (a : Vector UInt8 N) : Matrix Nat (Fin C) GF256 :=
  fun r c => ⟨cell a (r * C + c)⟩

/-- The first `R * C` bytes of `a`, as a matrix with `C` columns. -/
def matOf {N : Nat} (R C : Nat) (a : Vector UInt8 N) : Matrix (Fin R) (Fin C) GF256 :=
  (rowsOf C a).submatrix Fin.val id

theorem rowsOf_apply {N C : Nat} (a : Vector UInt8 N) (r : Nat) (c : Fin C) :
    rowsOf C a r c = ⟨cell a (r * C + c)⟩ := rfl

theorem matOf_apply {N R C : Nat} (a : Vector UInt8 N) (r : Fin R) (c : Fin C) :
    matOf R C a r c = ⟨cell a (r * C + c)⟩ := rfl

theorem rowsOf_upd {N C : Nat} (a : Vector UInt8 N) {i j : Nat} (hp : i * C + j < N) (hj : j < C)
    (x : UInt8) (r : Nat) (c : Fin C) :
    rowsOf C (upd a (i * C + j) x) r c = if r = i ∧ c = j then ⟨x⟩ else rowsOf C a r c := by
  unfold rowsOf
  split
  · rename_i h
    rw [h.1, h.2, cell_upd_self a hp]
  · rename_i h
    rw [cell_upd_ne]
    exact fun e => h ((pos_inj hj c.isLt e).imp Eq.symm Eq.symm)

theorem matOf_upd {N R C : Nat} (a : Vector UInt8 N) {i j : Nat} (hp : i * C + j < N) (hj : j < C)
    (x : UInt8) (r : Fin R) (c : Fin C) :
    matOf R C (upd a (i * C + j) x) r c = if r = i ∧ c = j then ⟨x⟩ else matOf R C a r c :=
  rowsOf_upd a hp hj x r c

/-! ## The generator -/

/-- mirrors lib/isa-l/erasure_code/ec_base.c:92-108 (`p` walks on from
`&a[k * k]`; `gf_inv` takes the low byte of `i ^ j`) -/
def gfGenCauchy1Matrix {N : Nat} (a : Vector UInt8 N) (m k : Nat) : Option (Vector UInt8 N) := do
  let a ← forUp 0 (k * m) a fun i a => wr a i 0
  let a ← forUp 0 k a fun i a => wr a (k * i + i) 1
  let (a, _) ← forUp k m (a, k * k) fun i s => forUp 0 k s fun j (a, p) => do
    let a ← wr a p (gfInv (UInt8.ofNat (i ^^^ j)))
    return (a, p + 1)
  return a

/-- The matrix `gf_gen_cauchy1_matrix` generates, with `k` columns. -/
def encodeMatrix (k : Nat) : Matrix Nat (Fin k) GF256 := fun r j =>
  if r < k then (if r = j then 1 else 0) else ⟨gfInv (UInt8.ofNat (r ^^^ j))⟩

/-- Zeroing the first `c` bytes, as `memset` and the first loops do. -/
theorem zeroLoop_spec {N c : Nat} (hN : c ≤ N) (b : Vector UInt8 N) :
    Returns (forUp 0 c b fun i b => wr b i 0) fun b' => ∀ x, x < c → cell b' x = 0 := by
  refine (forUp_writes (fun b : Vector UInt8 N => cell b) (fun i x => x = i) (fun _ => 0)
    (fun _ => True) (Nat.zero_le _) trivial ?_).mono fun b' ⟨_, hw, _⟩ x hx =>
      hw x x (Nat.zero_le _) hx rfl
  intro i t _ hi _ _ _
  rw [wr_eq _ (Nat.lt_of_lt_of_le hi hN)]
  refine returns_some ⟨trivial, ?_, fun x hx => cell_upd_ne _ (Ne.symm hx) _⟩
  rintro x rfl
  exact cell_upd_self _ (Nat.lt_of_lt_of_le hi hN) _

/-- Ones on the diagonal of `k` rows, the rest as it was. -/
theorem diagLoop_spec {N k : Nat} (hN : k * k ≤ N) (b : Vector UInt8 N) :
    Returns (forUp 0 k b fun i b => wr b (i * k + i) 1) fun b' => ∀ r (c : Fin k),
      rowsOf k b' r c = if r = c then 1 else rowsOf k b r c := by
  refine (forUp_writes (fun (b : Vector UInt8 N) (x : Nat × Fin k) => rowsOf k b x.1 x.2)
    (fun i x => x.1 = i ∧ x.2.val = i) (fun _ => 1) (fun _ => True) (Nat.zero_le _) trivial
    ?_).mono fun b' ⟨_, hw, hf⟩ r c => ?_
  · intro i t _ hi _ _ _
    have hp : i * k + i < N := Nat.lt_of_lt_of_le (pos_lt hi hi) hN
    rw [wr_eq _ hp]
    refine returns_some ⟨trivial, fun x hx => ?_, fun x hx => ?_⟩
    · rw [rowsOf_upd _ hp hi, if_pos hx]; rfl
    · rw [rowsOf_upd _ hp hi, if_neg hx]
  · split
    · rename_i h
      exact hw (r, c) r (Nat.zero_le _) (h ▸ c.isLt) ⟨rfl, h.symm⟩
    · rename_i h
      exact hf (r, c) fun i _ _ e => h (e.1.trans e.2.symm)

/-- Row `i` of the Cauchy part, written through the walking pointer. -/
theorem cauchyRow_spec {N k m : Nat} (hN : m * k ≤ N) (a : Vector UInt8 N) {i : Nat} (hi : i < m) :
    Returns (forUp 0 k (a, i * k) fun j (a, p) => do
        let a ← wr a p (gfInv (UInt8.ofNat (i ^^^ j)))
        return (a, p + 1)) fun s => s.2 = (i + 1) * k ∧ ∀ r (c : Fin k),
      rowsOf k s.1 r c = if r = i then ⟨gfInv (UInt8.ofNat (i ^^^ c))⟩ else rowsOf k a r c := by
  refine (Returns.forUp (fun j (s : Vector UInt8 N × Nat) => s.2 = i * k + j ∧ ∀ r (c : Fin k),
    rowsOf k s.1 r c = if r = i ∧ c.val < j then ⟨gfInv (UInt8.ofNat (i ^^^ c))⟩ else rowsOf k a r c)
    (Nat.zero_le k) ⟨rfl, fun r c => by simp⟩ ?_).mono fun s ⟨hp, h⟩ => ⟨?_, fun r c => ?_⟩
  · rintro j ⟨b, p⟩ - hj ⟨hp, h⟩
    have hlt : i * k + j < N := Nat.lt_of_lt_of_le (pos_lt hi hj) hN
    simp only at hp h
    subst hp
    simp only [wr_eq _ hlt, Option.bind_eq_bind, Option.bind_some]
    refine returns_some ⟨rfl, fun r c => ?_⟩
    rw [rowsOf_upd _ hlt hj, h]
    by_cases hr : r = i
    · rcases Nat.lt_trichotomy c.val j with hc | hc | hc
      · simp [hr, hc, Nat.ne_of_lt hc, Nat.lt_succ_of_lt hc]
      · simp [hr, hc]
      · simp [hr, Nat.ne_of_gt hc, Nat.not_lt.2 (Nat.le_of_lt hc), Nat.not_lt.2 (show j + 1 ≤ c from hc)]
    · simp [hr]
  · rw [hp, Nat.succ_mul]
  · rw [h]
    simp

theorem gfGenCauchy1Matrix_spec {N m k : Nat} (hN : m * k ≤ N) (hk : k ≤ m) (a : Vector UInt8 N) :
    Returns (gfGenCauchy1Matrix a m k) fun a' => ∀ r, r < m → rowsOf k a' r = encodeMatrix k r := by
  have hkk : k * k ≤ N := Nat.le_trans (Nat.mul_le_mul_right k hk) hN
  unfold gfGenCauchy1Matrix
  refine (zeroLoop_spec (by rw [Nat.mul_comm]; exact hN) a).bind fun a1 h1 => ?_
  simp only [Nat.mul_comm k]
  refine (diagLoop_spec hkk a1).bind fun a2 h2 => ?_
  refine (Returns.forUp (fun i (s : Vector UInt8 N × Nat) => s.2 = i * k ∧ ∀ r, r < m →
    rowsOf k s.1 r = if r < i then encodeMatrix k r else fun _ => 0) hk ⟨rfl, fun r hr => ?_⟩
    ?_).bind fun s ⟨_, h⟩ => returns_some fun r hr => ?_
  · funext c
    rw [h2, rowsOf_apply, h1 _ (by rw [Nat.mul_comm k]; exact pos_lt hr c.isLt)]
    by_cases hrk : r < k
    · simp [encodeMatrix, hrk]
    · have hne : r ≠ c.val := fun e => hrk (e ▸ c.isLt)
      simp [hrk, hne]
  · rintro i ⟨b, p⟩ hki hi ⟨hp, h⟩
    simp only at hp h
    subst hp
    refine (cauchyRow_spec hN b hi).mono fun s ⟨hp', h'⟩ => ⟨hp', fun r hr => ?_⟩
    funext c
    rw [h', h r hr]
    rcases Nat.lt_trichotomy r i with hri | hri | hri
    · simp [hri, Nat.ne_of_lt hri, Nat.lt_succ_of_lt hri]
    · simp [hri, encodeMatrix, Nat.not_lt.2 hki]
    · simp [Nat.ne_of_gt hri, Nat.not_lt.2 (Nat.le_of_lt hri), Nat.not_lt.2 (show i + 1 ≤ r from hri)]
  · rw [h r hr, if_pos hr]

/-! ## Its rows are independent -/

/-- The bytes below 256 as field elements. -/
def point (i : Nat) : GF256 := ⟨UInt8.ofNat i⟩

theorem point_inj {i j : Nat} (hi : i < 256) (hj : j < 256) (h : point i = point j) : i = j := by
  have := congrArg (fun x : GF256 => x.byte.toNat) h
  simp only [point, UInt8.toNat_ofNat'] at this
  omega

/-- Row `r` of the generator as a row of a systematic code. -/
def rowClass (k : Nat) (r : Fin 256) : Fin k ⊕ {p : Fin 256 // k ≤ p} :=
  if h : r < k then .inl ⟨r, h⟩ else .inr ⟨r, Nat.not_lt.1 h⟩

theorem rowClass_inj {k : Nat} : Function.Injective (rowClass k) := by
  intro r r' h
  by_cases hr : r.val < k <;> by_cases hr' : r'.val < k <;> simp [rowClass, hr, hr'] at h
  · exact Fin.ext h
  · exact h

theorem encodeMatrix_eq_systematic {k : Nat} (r : Fin 256) :
    encodeMatrix k r = Mds.systematic (fun p : {p : Fin 256 // k ≤ p} => point p.1)
      (fun j : Fin k => point j) (rowClass k r) := by
  funext j
  by_cases hr : r.val < k
  · simp [encodeMatrix, rowClass, hr, Mds.systematic, Matrix.one_apply, Fin.ext_iff]
  · simp [encodeMatrix, rowClass, hr, Mds.systematic, point, GF256.sub_eq_add]

/-- Any `k` different rows of the generator below row 256 are independent. -/
theorem encodeMatrix_isUnit {k : Nat} (hk : k ≤ 256) {σ : Fin k → Nat} (hσ : Function.Injective σ)
    (hlt : ∀ i, σ i < 256) : IsUnit ((encodeMatrix k).submatrix σ id) := by
  have e : (encodeMatrix k).submatrix σ id = (Mds.systematic
      (fun p : {p : Fin 256 // k ≤ p} => point p.1) (fun j : Fin k => point j)).submatrix
      (fun i => rowClass k ⟨σ i, hlt i⟩) id :=
    Matrix.ext fun i j => congrFun (encodeMatrix_eq_systematic ⟨σ i, hlt i⟩) j
  rw [e]
  refine Mds.systematic_isUnit (fun p p' h => ?_) (fun j j' h => ?_) (fun p j h => ?_) fun i i' h => ?_
  · exact Subtype.ext (Fin.ext (point_inj p.1.isLt p'.1.isLt h))
  · exact Fin.ext (point_inj (by omega) (by omega) h)
  · have := point_inj p.1.isLt (by omega) h
    have := p.2
    omega
  · exact hσ (congrArg Fin.val (rowClass_inj h))

/-! ## Inversion -/

section
variable {N M : Nat}

/-- Swap rows `i`, `j`.
mirrors lib/isa-l/erasure_code/ec_base.c:134-142 -/
def swapPivotRow (n i j : Nat) (s : Vector UInt8 N × Vector UInt8 M) :
    Option (Vector UInt8 N × Vector UInt8 M) :=
  forUp 0 n s fun k (in_mat, out_mat) => do
    let temp ← in_mat[i * n + k]?
    let in_mat ← wr in_mat (i * n + k) (← in_mat[j * n + k]?)
    let in_mat ← wr in_mat (j * n + k) temp
    let temp ← out_mat[i * n + k]?
    let out_mat ← wr out_mat (i * n + k) (← out_mat[j * n + k]?)
    let out_mat ← wr out_mat (j * n + k) temp
    return (in_mat, out_mat)

/-- Zero pivot: look below for a row with a nonzero entry in column `i` and
swap it up; without one the matrix is singular.
mirrors lib/isa-l/erasure_code/ec_base.c:124-143 -/
def pivotSwap (n i : Nat) (s : Vector UInt8 N × Vector UInt8 M) :
    Option ((Vector UInt8 N × Vector UInt8 M) × Option Int) := do
  if (← s.1[i * n + i]?) = 0 then
    let j ← scan (fun j => (s.1[j * n + i]?).map (· != 0)) (n - (i + 1)) (i + 1)
    if j = n then return (s, some (-1))
    else
      return (← swapPivotRow n i j s, none)
  else return (s, none)

/-- Scale row `i` by 1/pivot.
mirrors lib/isa-l/erasure_code/ec_base.c:145-149 -/
def scalePivotRow (n i : Nat) (s : Vector UInt8 N × Vector UInt8 M) :
    Option (Vector UInt8 N × Vector UInt8 M) := do
  let temp := gfInv (← s.1[i * n + i]?)
  forUp 0 n s fun j (in_mat, out_mat) => do
    let in_mat ← wr in_mat (i * n + j) (gfMul (← in_mat[i * n + j]?) temp)
    let out_mat ← wr out_mat (i * n + j) (gfMul (← out_mat[i * n + j]?) temp)
    return (in_mat, out_mat)

/-- Clear column `i` in row `j`.
mirrors lib/isa-l/erasure_code/ec_base.c:155-159 -/
def eliminateRow (n i j : Nat) (s : Vector UInt8 N × Vector UInt8 M) :
    Option (Vector UInt8 N × Vector UInt8 M) := do
  let temp ← s.1[j * n + i]?
  forUp 0 n s fun k (in_mat, out_mat) => do
    let out_mat ← wr out_mat (j * n + k)
      ((← out_mat[j * n + k]?) ^^^ gfMul temp (← out_mat[i * n + k]?))
    let in_mat ← wr in_mat (j * n + k)
      ((← in_mat[j * n + k]?) ^^^ gfMul temp (← in_mat[i * n + k]?))
    return (in_mat, out_mat)

/-- Clear column `i` in every other row.
mirrors lib/isa-l/erasure_code/ec_base.c:151-160 -/
def eliminateRows (n i : Nat) (s : Vector UInt8 N × Vector UInt8 M) :
    Option (Vector UInt8 N × Vector UInt8 M) :=
  forUp 0 n s fun j s => if j = i then some s else eliminateRow n i j s

/-- One round of the main loop.
mirrors lib/isa-l/erasure_code/ec_base.c:123-161 -/
def invertColumn (n i : Nat) (s : Vector UInt8 N × Vector UInt8 M) :
    Option ((Vector UInt8 N × Vector UInt8 M) × Option Int) := do
  let (s, r) ← pivotSwap n i s
  match r with
  | some v => return (s, some v)
  | none =>
    let s ← scalePivotRow n i s
    let s ← eliminateRows n i s
    return (s, none)

/-- Both arrays afterwards, and the value returned.
mirrors lib/isa-l/erasure_code/ec_base.c:110-163 -/
def gfInvertMatrix (in_mat : Vector UInt8 N) (out_mat : Vector UInt8 M) (n : Nat) :
    Option ((Vector UInt8 N × Vector UInt8 M) × Int) := do
  let out_mat ← forUp 0 (n * n) out_mat fun i out_mat => wr out_mat i 0
  let out_mat ← forUp 0 n out_mat fun i out_mat => wr out_mat (i * n + i) 1
  let (s, r) ← forUntil 0 n (in_mat, out_mat) (invertColumn n)
  return (s, r.getD 0)

/-! ## The loops are row operations -/

/-- Both matrices of the elimination, entry by entry. -/
def entries (n : Nat) (s : Vector UInt8 N × Vector UInt8 M) : Bool × Fin n × Fin n → GF256
  | (true, r, c) => matOf n n s.1 r c
  | (false, r, c) => matOf n n s.2 r c

variable {n : Nat}

/-- A loop over the columns whose round `k` sets column `k` of both matrices
to what `val` says, reading only columns not yet set. -/
theorem columnLoop {body : Nat → Vector UInt8 N × Vector UInt8 M → Option (Vector UInt8 N × Vector UInt8 M)}
    {s : Vector UInt8 N × Vector UInt8 M} (val : Bool × Fin n × Fin n → GF256)
    (hbody : ∀ (k : Fin n) t, (∀ x, x.2.2 = k → entries n t x = entries n s x) →
      Returns (body k t) fun t' =>
        ∀ x, entries n t' x = if x.2.2 = k then val x else entries n t x) :
    Returns (forUp 0 n s body) fun s' => ∀ x, entries n s' x = val x := by
  refine (forUp_writes (entries n) (fun k x => x.2.2.val = k) val (fun _ => True) (Nat.zero_le n)
    trivial ?_).mono fun s' ⟨_, hw, _⟩ x => hw x x.2.2 (Nat.zero_le _) x.2.2.isLt rfl
  intro k t _ hk _ hold _
  refine (hbody ⟨k, hk⟩ t fun x hx => hold x fun j _ hj => ?_).mono fun t' h => ⟨trivial, ?_, ?_⟩
  · rw [hx]; exact Nat.ne_of_gt hj
  · intro x hx
    rw [h, if_pos (Fin.ext hx)]
  · intro x hx
    rw [h, if_neg fun e => hx (congrArg Fin.val e)]

theorem matOf_eq_of_entries {s : Vector UInt8 N × Vector UInt8 M}
    {val : Bool × Fin n × Fin n → GF256} {A B : Matrix (Fin n) (Fin n) GF256}
    (h : ∀ x, entries n s x = val x) (hA : ∀ r c, val (true, r, c) = A r c)
    (hB : ∀ r c, val (false, r, c) = B r c) : matOf n n s.1 = A ∧ matOf n n s.2 = B :=
  ⟨Matrix.ext fun r c => (h (true, r, c)).trans (hA r c),
    Matrix.ext fun r c => (h (false, r, c)).trans (hB r c)⟩

variable (hN : n * n ≤ N) (hM : n * n ≤ M)

include hN hM in
theorem scalePivotRow_spec (s : Vector UInt8 N × Vector UInt8 M) (i : Fin n) :
    Returns (scalePivotRow n i s) fun s' =>
      matOf n n s'.1 = GaussJordan.scaleRow (matOf n n s.1) i (matOf n n s.1 i i)⁻¹ ∧
      matOf n n s'.2 = GaussJordan.scaleRow (matOf n n s.2) i (matOf n n s.1 i i)⁻¹ := by
  have hp : ∀ j, j < n → i * n + j < n * n := fun j hj => pos_lt i.isLt hj
  unfold scalePivotRow
  rw [rd_eq s.1 (Nat.lt_of_lt_of_le (hp i i.isLt) hN)]
  simp only [Option.bind_eq_bind, Option.bind_some]
  refine (columnLoop (n := n) (fun x => if x.2.1 = i then entries n s (x.1, i, x.2.2) * (matOf n n s.1 i i)⁻¹
    else entries n s x) ?_).mono fun s' h => matOf_eq_of_entries h (fun r c => ?_) fun r c => ?_
  rotate_left
  · simp [entries, GaussJordan.scaleRow]
  · simp [entries, GaussJordan.scaleRow]
  rintro k ⟨a, b⟩ hold
  have ha := Nat.lt_of_lt_of_le (hp k k.isLt) hN
  have hb := Nat.lt_of_lt_of_le (hp k k.isLt) hM
  simp only [rd_eq a ha, rd_eq b hb, wr_eq _ ha, wr_eq _ hb, Option.bind_some]
  refine returns_some ?_
  rintro ⟨t, r, c⟩
  by_cases hc : c = k
  · subst hc
    by_cases hr : r = i
    · subst hr
      rw [if_pos rfl, if_pos rfl, ← hold (t, r, c) rfl]
      cases t <;> simp [entries, matOf_upd _ ha c.isLt, matOf_upd _ hb c.isLt, matOf_apply]
    · rw [if_pos rfl, if_neg hr, ← hold (t, r, c) rfl]
      cases t <;> simp [entries, matOf_upd _ ha c.isLt, matOf_upd _ hb c.isLt, Fin.val_inj, hr]
  · rw [if_neg hc]
    cases t <;> simp [entries, matOf_upd _ ha k.isLt, matOf_upd _ hb k.isLt, Fin.val_inj, hc]

include hN hM in
theorem eliminateRow_spec (s : Vector UInt8 N × Vector UInt8 M) (i j : Fin n) (hij : j ≠ i) :
    Returns (eliminateRow n i j s) fun s' => ∀ x, entries n s' x =
      if x.2.1 = j then entries n s x - matOf n n s.1 j i * entries n s (x.1, i, x.2.2)
      else entries n s x := by
  have hp : ∀ r : Fin n, ∀ c, c < n → r * n + c < n * n := fun r c hc => pos_lt r.isLt hc
  unfold eliminateRow
  rw [rd_eq s.1 (Nat.lt_of_lt_of_le (hp j i i.isLt) hN)]
  simp only [Option.bind_eq_bind, Option.bind_some]
  refine columnLoop (n := n) (fun x => if x.2.1 = j then
    entries n s x - matOf n n s.1 j i * entries n s (x.1, i, x.2.2) else entries n s x) ?_
  rintro k ⟨a, b⟩ hold
  have ha := fun r => Nat.lt_of_lt_of_le (hp r k k.isLt) hN
  have hb := fun r => Nat.lt_of_lt_of_le (hp r k k.isLt) hM
  simp only [rd_eq a (ha _), rd_eq b (hb _), wr_eq _ (ha _), wr_eq _ (hb _), Option.bind_some]
  refine returns_some ?_
  rintro ⟨t, r, c⟩
  by_cases hc : c = k
  · subst hc
    by_cases hr : r = j
    · subst hr
      rw [if_pos rfl, if_pos rfl, ← hold (t, r, c) rfl, ← hold (t, i, c) rfl, GF256.sub_eq_add]
      cases t <;> simp [entries, matOf_upd _ (ha r) c.isLt, matOf_upd _ (hb r) c.isLt, matOf_apply]
    · rw [if_pos rfl, if_neg hr, ← hold (t, r, c) rfl]
      cases t <;>
        simp [entries, matOf_upd _ (ha j) c.isLt, matOf_upd _ (hb j) c.isLt, Fin.val_inj, hr]
  · rw [if_neg hc]
    cases t <;> simp [entries, matOf_upd _ (ha j) k.isLt, matOf_upd _ (hb j) k.isLt, Fin.val_inj, hc]

include hN hM in
theorem eliminateRows_spec (s : Vector UInt8 N × Vector UInt8 M) (i : Fin n) :
    Returns (eliminateRows n i s) fun s' =>
      matOf n n s'.1 = GaussJordan.elimRows (matOf n n s.1) i (fun r => matOf n n s.1 r i) ∧
      matOf n n s'.2 = GaussJordan.elimRows (matOf n n s.2) i (fun r => matOf n n s.1 r i) := by
  unfold eliminateRows
  refine (forUp_writes (entries n) (fun j x => x.2.1.val = j) (fun x =>
    if x.2.1 = i then entries n s (x.1, i, x.2.2)
    else entries n s x - matOf n n s.1 x.2.1 i * entries n s (x.1, i, x.2.2)) (fun _ => True)
    (Nat.zero_le n) trivial ?_).mono fun s' ⟨_, hw, _⟩ => ?_
  · intro j t _ hj _ hold hset
    have hrow : ∀ x : Bool × Fin n × Fin n, x.2.1.val = j → entries n t x = entries n s x :=
      fun x hx => hold x fun j' _ hj' e => by omega
    -- row `i` is never written, so its entries are still those of `s`
    have hpiv : ∀ b c, entries n t (b, i, c) = entries n s (b, i, c) := by
      intro b c
      by_cases hij : i.val < j
      · rw [hset (b, i, c) i (Nat.zero_le _) hij rfl, if_pos rfl]
      · exact hold (b, i, c) fun j' _ hj' e => hij (by rw [e]; exact hj')
    by_cases hji : j = i
    · rw [if_pos hji]
      refine returns_some ⟨trivial, fun x hx => ?_, fun x _ => rfl⟩
      have hxi : x.2.1 = i := Fin.ext (hx.trans hji)
      rw [hrow x hx, if_pos hxi, ← hxi]
    · rw [if_neg hji]
      refine (eliminateRow_spec hN hM t i ⟨j, hj⟩ fun e => hji (congrArg Fin.val e)).mono
        fun t' ht' => ⟨trivial, fun x hx => ?_, fun x hx => ?_⟩
      · have hxj : x.2.1 = ⟨j, hj⟩ := Fin.ext hx
        have hrow' := hrow (true, x.2.1, i) hx
        simp only [entries, hxj] at hrow'
        rw [ht', if_pos hxj, if_neg fun e => hji (hx.symm.trans (congrArg Fin.val e)), hrow x hx,
          hpiv, hrow', hxj]
      · rw [ht', if_neg fun e => hx (congrArg Fin.val e)]
  · exact matOf_eq_of_entries (fun x => hw x x.2.1 (Nat.zero_le _) x.2.1.isLt rfl)
      (fun r c => by simp [entries, GaussJordan.elimRows])
      fun r c => by simp [entries, GaussJordan.elimRows]

include hN hM in
theorem swapPivotRow_spec (s : Vector UInt8 N × Vector UInt8 M) (i j : Fin n) :
    Returns (swapPivotRow n i j s) fun s' =>
      matOf n n s'.1 = GaussJordan.swapRows (matOf n n s.1) i j ∧
      matOf n n s'.2 = GaussJordan.swapRows (matOf n n s.2) i j := by
  refine (columnLoop (n := n) (fun x => entries n s (x.1, Equiv.swap i j x.2.1, x.2.2)) ?_).mono
    fun s' h => matOf_eq_of_entries h (fun r c => by simp [entries, GaussJordan.swapRows])
      fun r c => by simp [entries, GaussJordan.swapRows]
  rintro k ⟨a, b⟩ hold
  have ha : ∀ r : Fin n, r * n + k < N := fun r => Nat.lt_of_lt_of_le (pos_lt r.isLt k.isLt) hN
  have hb : ∀ r : Fin n, r * n + k < M := fun r => Nat.lt_of_lt_of_le (pos_lt r.isLt k.isLt) hM
  simp only [Option.bind_eq_bind, rd_eq a (ha _), rd_eq b (hb _), wr_eq _ (ha _), wr_eq _ (hb _),
    Option.bind_some]
  refine returns_some ?_
  rintro ⟨t, r, c⟩
  by_cases hc : c = k
  · subst hc
    rw [if_pos rfl, ← hold _ rfl]
    by_cases hrj : r = j
    · subst hrj
      rw [Equiv.swap_apply_right]
      cases t <;> simp [entries, matOf_upd _ (ha _) c.isLt, matOf_upd _ (hb _) c.isLt, matOf_apply]
    · by_cases hri : r = i
      · subst hri
        rw [Equiv.swap_apply_left]
        cases t <;> simp [entries, matOf_upd _ (ha _) c.isLt, matOf_upd _ (hb _) c.isLt,
          Fin.val_inj, hrj, matOf_apply]
      · rw [Equiv.swap_apply_of_ne_of_ne hri hrj]
        cases t <;> simp [entries, matOf_upd _ (ha _) c.isLt, matOf_upd _ (hb _) c.isLt,
          Fin.val_inj, hri, hrj]
  · rw [if_neg hc]
    cases t <;> simp [entries, matOf_upd _ (ha _) k.isLt, matOf_upd _ (hb _) k.isLt, Fin.val_inj, hc]

theorem swapRows_self (A : Matrix (Fin n) (Fin n) GF256) (i : Fin n) :
    GaussJordan.swapRows A i i = A := by
  simp [GaussJordan.swapRows]

include hN hM in
/-- Either a pivot on or below the diagonal is now in row `i`, or there is none. -/
theorem pivotSwap_spec (s : Vector UInt8 N × Vector UInt8 M) (i : Fin n) :
    Returns (pivotSwap n i s) (Exits
      (fun s' => ∃ j, i ≤ j ∧ matOf n n s.1 j i ≠ 0 ∧
        matOf n n s'.1 = GaussJordan.swapRows (matOf n n s.1) i j ∧
        matOf n n s'.2 = GaussJordan.swapRows (matOf n n s.2) i j)
      fun _ v => v = -1 ∧ ∀ r, i ≤ r → matOf n n s.1 r i = 0) := by
  have hrd : ∀ r, r < n → s.1[r * n + i]? = some (cell s.1 (r * n + i)) :=
    fun r hr => rd_eq _ (Nat.lt_of_lt_of_le (pos_lt hr i.isLt) hN)
  have hzero : ∀ r : Fin n, cell s.1 (r * n + i) = 0 ↔ matOf n n s.1 r i = 0 := fun r =>
    ⟨fun h => by rw [matOf_apply, h]; rfl, fun h => congrArg GF256.byte h⟩
  unfold pivotSwap
  rw [hrd i i.isLt]
  simp only [Option.bind_eq_bind, Option.bind_some]
  split
  · rename_i h0
    refine (returns_scan (c := fun r => cell s.1 (r * n + i) != 0) fun r h1 h2 _ => ?_).bind
      fun j ⟨h1, h2, h3, h4⟩ => ?_
    · have hr : r < n := by have := i.isLt; omega
      rw [hrd r hr]; rfl
    · have hin := i.isLt
      split
      · rename_i hj
        refine returns_some ⟨rfl, fun r hr => (hzero r).1 ?_⟩
        rcases Nat.eq_or_lt_of_le (show i.val ≤ r.val from hr) with e | hlt
        · rw [← e]; exact h0
        · simpa using h3 r hlt (by have := r.isLt; omega)
      · rename_i hj
        have hjn : j < n := by omega
        have hpj : cell s.1 (j * n + i) ≠ 0 := by simpa using h4 (by omega)
        refine (swapPivotRow_spec hN hM s i ⟨j, hjn⟩).bind fun s' hs' => returns_some
          ⟨⟨j, hjn⟩, Nat.le_of_succ_le h1, fun e => hpj ((hzero ⟨j, hjn⟩).2 e), hs'⟩
  · rename_i h0
    exact returns_some ⟨i, le_refl i, fun e => h0 ((hzero i).2 e), by simp [swapRows_self]⟩

include hN hM in
/-- One round clears one more column, or finds the matrix singular. -/
theorem invertColumn_spec {A₀ : Matrix (Fin n) (Fin n) GF256} (s : Vector UInt8 N × Vector UInt8 M)
    (i : Fin n) (hs : GaussJordan.Solves A₀ (matOf n n s.1) (matOf n n s.2))
    (hc : GaussJordan.Cleared i (matOf n n s.1)) :
    Returns (invertColumn n i s) (Exits
      (fun s' => GaussJordan.Solves A₀ (matOf n n s'.1) (matOf n n s'.2) ∧
        GaussJordan.Cleared (i + 1) (matOf n n s'.1))
      fun _ v => v = -1 ∧ ¬ IsUnit A₀) := by
  unfold invertColumn
  refine (pivotSwap_spec hN hM s i).bind fun p hp => ?_
  obtain ⟨s1, r⟩ := p
  cases r with
  | some v => exact returns_some ⟨hp.1, hs.singular hc hp.2⟩
  | none =>
    obtain ⟨j, hij, hpj, ha, hb⟩ := hp
    have hs1 := hs.swap i j
    have hc1 := hc.swap hij
    rw [← ha, ← hb] at hs1
    rw [← ha] at hc1
    have hpiv : matOf n n s1.1 i i ≠ 0 := by
      rw [ha]
      simpa [GaussJordan.swapRows] using hpj
    refine (scalePivotRow_spec hN hM s1 i).bind fun s2 h2 => ?_
    obtain ⟨ha2, hb2⟩ := h2
    have hs2 := hs1.scale i (inv_ne_zero hpiv)
    have hc2 := hc1.scale (matOf n n s1.1 i i)⁻¹
    have h1 : matOf n n s2.1 i i = 1 := by
      rw [ha2]
      simpa [GaussJordan.scaleRow] using mul_inv_cancel₀ hpiv
    rw [← ha2] at hc2
    rw [← ha2, ← hb2] at hs2
    refine (eliminateRows_spec hN hM s2 i).bind fun s3 h3 => returns_some ?_
    obtain ⟨ha3, hb3⟩ := h3
    have hs3 := hs2.elim i fun r => matOf n n s2.1 r i
    have hc3 := hc2.elim h1
    rw [← ha3, ← hb3] at hs3
    rw [← ha3] at hc3
    exact ⟨hs3, hc3⟩

include hN hM in
/-- `gf_invert_matrix` inverts, or reports a singular matrix. -/
theorem gfInvertMatrix_spec (a : Vector UInt8 N) (b : Vector UInt8 M) :
    Returns (gfInvertMatrix a b n) fun p =>
      (p.2 = 0 ∧ matOf n n p.1.2 * matOf n n a = 1) ∨ (p.2 = -1 ∧ ¬ IsUnit (matOf n n a)) := by
  unfold gfInvertMatrix
  refine (zeroLoop_spec hM b).bind fun b1 hb1 => (diagLoop_spec hM b1).bind fun b2 hb2 => ?_
  refine (Returns.forUntil (fun i s => GaussJordan.Solves (matOf n n a) (matOf n n s.1)
    (matOf n n s.2) ∧ GaussJordan.Cleared i (matOf n n s.1)) (fun _ v => v = -1 ∧ ¬ IsUnit (matOf n n a))
    (Nat.zero_le n) ⟨?_, fun r c hc => absurd hc (Nat.not_lt_zero _)⟩ fun i s _ hi ⟨hs, hc⟩ =>
      invertColumn_spec hN hM s ⟨i, hi⟩ hs hc).bind fun p hp => ?_
  · have h1 : matOf n n b2 = 1 := by
      ext r c
      rw [matOf, Matrix.submatrix_apply, id, hb2, Matrix.one_apply, rowsOf_apply,
        hb1 _ (pos_lt r.isLt c.isLt)]
      simp [Fin.val_inj]
    rw [h1]
    exact GaussJordan.Solves.init _
  obtain ⟨s, r⟩ := p
  cases r with
  | none => exact returns_some (.inl ⟨rfl, hp.1.inverse hp.2⟩)
  | some v => exact returns_some (.inr hp)

end

end ErasureCode.Isal
