import ErasureCode.Core.Survivors
import ErasureCode.Isal.Encode

/-!
# `gf_gen_decode_matrix_simple`

The decode matrix for an erasure list (`src/IsaEC.hpp:51-112`): the first `n`
fragments outside the list are selected, their rows of the encode matrix are
inverted, and each listed fragment gets a row: a row of the inverse when it is
a data fragment, a row of the encode matrix times the inverse when it is a
parity fragment.

`gfGenDecodeMatrixSimple_spec`: with `B` the rows of the encode matrix at the
`n` lowest survivors, row `i` of the decode matrix is a vector `D` with
`D * B` the encode row of the `i`-th listed fragment, and 0 is returned; -1 is
returned exactly when `B` is singular. It holds for every encode matrix whose
first `n` rows are the identity and for every contents of the output arrays.
`gfGenDecodeMatrixSimple_decodes` says the same of arrays of the sizes the class
gives them, in terms of the `decode_index` that is returned.
-/
namespace ErasureCode.IsaEC

open ErasureCode.Core ErasureCode.Isal Matrix

/-- The arrays `gf_gen_decode_matrix_simple` writes. -/
structure Scratch (M I : Nat) where
  decode_matrix : Vector UInt8 M
  invert_matrix : Vector UInt8 M
  temp_matrix : Vector UInt8 M
  decode_index : Vector UInt8 I
  deriving Inhabited

/-- The `i`-th entry of an erasure list. -/
def entry {e : Nat} (frag_err_list : Vector UInt8 e) (i : Nat) : Nat := (cell frag_err_list i).toNat

/-- The fragments an erasure list names. -/
def erased {e : Nat} (frag_err_list : Vector UInt8 e) : Finset Nat :=
  (Finset.range e).image (entry frag_err_list)

section
variable {M I N nerrs : Nat}

/-- `frag_in_err` (`nsrcerrs`, which is counted here, is never read).
mirrors src/IsaEC.hpp:60-71 -/
def fragInErr (frag_err_list : Vector UInt8 nerrs) (m : Nat) : Option (Vector UInt8 m) :=
  forUp 0 nerrs (Vector.replicate m 0) fun i frag_in_err => do
    wr frag_in_err (← frag_err_list[i]?).toNat 1

/-- `while (frag_in_err[r]) r++;` leaves the array after at most `m + 1`
rounds.
mirrors src/IsaEC.hpp:76-77 -/
def skipErased {m : Nat} (frag_in_err : Vector UInt8 m) (r : Nat) : Option Nat :=
  scan (fun r => (frag_in_err[r]?).map (· == 0)) (m + 1) r

/-- `for (j = 0; j < n; j++) a[n * i + j] = x(j);` -/
def fillRow (n i : Nat) (x : Nat → Option UInt8) (a : Vector UInt8 M) : Option (Vector UInt8 M) :=
  forUp 0 n a fun j a => do wr a (n * i + j) (← x j)

/-- The rows of the first `n` fragments outside the list, and their numbers
(a `u8` each).
mirrors src/IsaEC.hpp:73-81 -/
def takeSurvivors {m : Nat} (encode_matrix : Vector UInt8 N) (frag_in_err : Vector UInt8 m) (n : Nat)
    (b : Vector UInt8 M) (decode_index : Vector UInt8 I) : Option (Vector UInt8 M × Vector UInt8 I) := do
  let s ← forUp 0 n (b, decode_index, 0) fun i (b, decode_index, r) => do
    let r ← skipErased frag_in_err r
    let b ← fillRow n i (fun j => encode_matrix[n * r + j]?) b
    let decode_index ← wr decode_index i (UInt8.ofNat r)
    return (b, decode_index, r + 1)
  return (s.1, s.2.1)

/-- Rows for the listed data fragments.
mirrors src/IsaEC.hpp:87-94 -/
def dataRows (invert_matrix : Vector UInt8 M) (frag_err_list : Vector UInt8 nerrs) (n : Nat)
    (decode_matrix : Vector UInt8 M) : Option (Vector UInt8 M) :=
  forUp 0 nerrs decode_matrix fun i decode_matrix => do
    let f ← frag_err_list[i]?
    if f.toNat < n then fillRow n i (fun j => invert_matrix[n * f.toNat + j]?) decode_matrix
    else return decode_matrix

/-- The inner product of lines 103-106. -/
def parityCoef (encode_matrix : Vector UInt8 N) (invert_matrix : Vector UInt8 M) (n f i : Nat) :
    Option UInt8 :=
  forUp 0 n 0 fun j s => do
    return s ^^^ gfMul (← invert_matrix[j * n + i]?) (← encode_matrix[n * f + j]?)

/-- Rows for the listed parity fragments.
mirrors src/IsaEC.hpp:96-110 -/
def parityRows (encode_matrix : Vector UInt8 N) (invert_matrix : Vector UInt8 M)
    (frag_err_list : Vector UInt8 nerrs) (n : Nat) (decode_matrix : Vector UInt8 M) :
    Option (Vector UInt8 M) :=
  forUp 0 nerrs decode_matrix fun k decode_matrix => do
    let f ← frag_err_list[k]?
    if n ≤ f.toNat then fillRow n k (parityCoef encode_matrix invert_matrix n f.toNat) decode_matrix
    else return decode_matrix

/-- The arrays afterwards, and the value returned.
mirrors src/IsaEC.hpp:51-112 -/
def gfGenDecodeMatrixSimple (encode_matrix : Vector UInt8 N) (s : Scratch M I)
    (frag_err_list : Vector UInt8 nerrs) (n m : Nat) : Option (Scratch M I × Int) := do
  let frag_in_err ← fragInErr frag_err_list m
  let (b, decode_index) ← takeSurvivors encode_matrix frag_in_err n s.temp_matrix s.decode_index
  let ((temp_matrix, invert_matrix), ret) ← gfInvertMatrix b s.invert_matrix n
  if ret < 0 then return (⟨s.decode_matrix, invert_matrix, temp_matrix, decode_index⟩, -1)
  else
    let decode_matrix ← dataRows invert_matrix frag_err_list n s.decode_matrix
    let decode_matrix ← parityRows encode_matrix invert_matrix frag_err_list n decode_matrix
    return (⟨decode_matrix, invert_matrix, temp_matrix, decode_index⟩, 0)

end

/-! ## Each loop -/

theorem mem_erased {e : Nat} {l : Vector UInt8 e} {r : Nat} : r ∈ erased l ↔ ∃ i, i < e ∧ entry l i = r := by
  simp [erased]

theorem erased_card_le {e : Nat} (l : Vector UInt8 e) : (erased l).card ≤ e := by
  have := Finset.card_image_le (s := Finset.range e) (f := entry l)
  rwa [Finset.card_range] at this

section
variable {M I N nerrs m n : Nat}

theorem fragInErr_spec {l : Vector UInt8 nerrs} (hl : ∀ i, i < nerrs → entry l i < m) :
    Returns (fragInErr l m) fun f => ∀ r, r < m → (cell f r = 0 ↔ r ∉ erased l) := by
  unfold fragInErr
  refine (forUp_writes (fun b : Vector UInt8 m => cell b) (fun i x => x = entry l i) (fun _ => 1)
    (fun _ => True) (Nat.zero_le _) trivial ?_).mono fun f ⟨_, hw, hf⟩ r hr => ?_
  · intro i t _ hi _ _ _
    simp only [rd_eq l hi, Option.bind_eq_bind, Option.bind_some]
    have hlt : (cell l i).toNat < m := hl i hi
    rw [wr_eq _ hlt]
    refine returns_some ⟨trivial, ?_, fun x hx => cell_upd_ne _ (Ne.symm hx) _⟩
    rintro x rfl
    exact cell_upd_self _ hlt _
  · rw [mem_erased]
    constructor
    · rintro h0 ⟨i, hi, rfl⟩
      rw [hw _ i (Nat.zero_le _) hi rfl] at h0
      exact absurd h0 (by decide)
    · intro h
      rw [hf r fun i _ hi e => h ⟨i, hi, e.symm⟩]
      simp [cell, hr]

theorem fillRow_spec {x : Nat → Option UInt8} {v : Nat → UInt8} {i : Nat} (hM : (i + 1) * n ≤ M)
    (hx : ∀ j, j < n → x j = some (v j)) (a : Vector UInt8 M) :
    Returns (fillRow n i x a) fun a' => ∀ r (c : Fin n),
      rowsOf n a' r c = if r = i then ⟨v c⟩ else rowsOf n a r c := by
  unfold fillRow
  refine (forUp_writes (fun (b : Vector UInt8 M) (x : Nat × Fin n) => rowsOf n b x.1 x.2)
    (fun j x => x.1 = i ∧ x.2.val = j) (fun x => ⟨v x.2⟩) (fun _ => True) (Nat.zero_le _) trivial
    ?_).mono fun b' ⟨_, hw, hf⟩ r c => ?_
  · intro j t _ hj _ _ _
    have hp : i * n + j < M := Nat.lt_of_lt_of_le (pos_lt (Nat.lt_succ_self i) hj) hM
    rw [hx j hj, Nat.mul_comm n i]
    simp only [Option.bind_eq_bind, Option.bind_some]
    rw [wr_eq _ hp]
    refine returns_some ⟨trivial, fun x hx => ?_, fun x hx => ?_⟩
    · rw [rowsOf_upd _ hp hj, if_pos hx, hx.2]
    · rw [rowsOf_upd _ hp hj, if_neg hx]
  · split
    · rename_i h
      exact hw (r, c) c (Nat.zero_le _) c.isLt ⟨h, rfl⟩
    · rename_i h
      exact hf (r, c) fun j _ _ e => h e.1

theorem skipErased_spec {E : Finset Nat} {f : Vector UInt8 m} (hf : ∀ r, r < m → (cell f r = 0 ↔ r ∉ E))
    {i r : Nat} (hi : passed E r = i) (hs : survivor E i < m) :
    Returns (skipErased f r) fun r' => r' = survivor E i ∧ passed E (r' + 1) = i + 1 := by
  have hrs : r ≤ survivor E i := by
    by_contra hlt
    have := survivor_lt_iff.1 (Nat.lt_of_not_le hlt)
    omega
  unfold skipErased
  refine (returns_scan (c := fun r => decide (r ∉ E)) fun j _ _ hprev => ?_).mono
    fun r' ⟨h1, h2, h3, h4⟩ => ?_
  · have hj : j < m := by
      by_contra hjm
      have := hprev (survivor E i) hrs (by omega)
      simp [survivor_not_mem] at this
    rw [rd_eq f hj, Option.map_some, Option.some_inj]
    by_cases hjE : j ∈ E
    · simpa [hjE] using fun h => (hf j hj).1 h hjE
    · simpa [hjE] using (hf j hj).2 hjE
  · have hr' : r' ∉ E := by
      have hlt : r' < r + (m + 1) := by
        by_contra hc
        have := h3 (survivor E i) hrs (by omega)
        simp [survivor_not_mem] at this
      exact of_decide_eq_true (h4 hlt)
    obtain ⟨h, h'⟩ := survivor_next hi h1 (fun j hj1 hj2 => by simpa using h3 j hj1 hj2) hr'
    exact ⟨h.symm, h'⟩

/-- The survivors' rows, and their numbers. -/
theorem takeSurvivors_spec {E : Finset Nat} {f : Vector UInt8 m} (hf : ∀ r, r < m → (cell f r = 0 ↔ r ∉ E))
    {enc : Vector UInt8 N} (hN : m * n ≤ N) (hM : n * n ≤ M) (hI : n ≤ I) (hE : n ≤ passed E m)
    (b : Vector UInt8 M) (idx : Vector UInt8 I) :
    Returns (takeSurvivors enc f n b idx) fun p =>
      matOf n n p.1 = (rowsOf n enc).submatrix (fun i : Fin n => survivor E i) id ∧
        ∀ i, i < n → cell p.2 i = UInt8.ofNat (survivor E i) := by
  unfold takeSurvivors
  refine (Returns.forUp (fun i (s : Vector UInt8 M × Vector UInt8 I × Nat) =>
    (∀ r (c : Fin n), r < i → rowsOf n s.1 r c = rowsOf n enc (survivor E r) c) ∧
      (∀ j, j < i → cell s.2.1 j = UInt8.ofNat (survivor E j)) ∧ passed E s.2.2 = i) (Nat.zero_le n)
    ⟨fun _ _ h => absurd h (Nat.not_lt_zero _), fun _ h => absurd h (Nat.not_lt_zero _), passed_zero⟩
    ?_).bind fun s ⟨hb, hidx, _⟩ => returns_some ⟨?_, hidx⟩
  · rintro i ⟨b, idx, r⟩ - hi ⟨hb, hidx, hr⟩
    have hs : survivor E i < m := survivor_lt_iff.2 (by omega)
    refine (skipErased_spec hf hr hs).bind fun r' ⟨hr', hp⟩ => ?_
    subst hr'
    refine (fillRow_spec (v := fun j => cell enc (survivor E i * n + j))
      (Nat.le_trans (Nat.mul_le_mul_right n hi) hM) (fun j hj => ?_) b).bind fun b' hb' => ?_
    · rw [Nat.mul_comm n]
      exact rd_eq enc (Nat.lt_of_lt_of_le (pos_lt hs hj) hN)
    · have hlt : i < I := by omega
      simp only [wr_eq idx hlt, Option.bind_eq_bind, Option.bind_some]
      refine returns_some ⟨fun r c hr => ?_, fun j hj => ?_, hp⟩
      · rw [hb']
        split
        · rename_i h
          rw [h]; rfl
        · exact hb r c (by omega)
      · rcases Nat.lt_or_eq_of_le (Nat.le_of_lt_succ hj) with h | rfl
        · simp only
          rw [cell_upd_ne _ (by omega), hidx j h]
        · exact cell_upd_self _ hlt _
  · funext r c
    exact hb r c r.isLt

/-- A loop over the list that fills the rows of some of its fragments. -/
theorem rowsLoop {l : Vector UInt8 nerrs} (hM : nerrs * n ≤ M) (sel : Nat → Prop) [DecidablePred sel]
    {x : Nat → Nat → Option UInt8} {v : Nat → Nat → UInt8}
    (hx : ∀ i, i < nerrs → sel (entry l i) → ∀ j, j < n → x (entry l i) j = some (v (entry l i) j))
    (a : Vector UInt8 M) :
    Returns (forUp 0 nerrs a fun i a => do
        let f ← l[i]?
        if sel f.toNat then fillRow n i (x f.toNat) a else return a) fun a' =>
      ∀ i (c : Fin n), i < nerrs →
        rowsOf n a' i c = if sel (entry l i) then ⟨v (entry l i) c⟩ else rowsOf n a i c := by
  refine (forUp_writes (fun (b : Vector UInt8 M) (x : Nat × Fin n) => rowsOf n b x.1 x.2)
    (fun i x => x.1 = i ∧ sel (entry l i)) (fun x => ⟨v (entry l x.1) x.2⟩) (fun _ => True)
    (Nat.zero_le _) trivial ?_).mono fun b' ⟨_, hw, hf⟩ i c hi => ?_
  · intro i t _ hi _ _ _
    simp only [rd_eq l hi, Option.bind_eq_bind, Option.bind_some]
    by_cases hs : sel (cell l i).toNat
    · simp only [if_pos hs]
      refine (fillRow_spec (Nat.le_trans (Nat.mul_le_mul_right n hi) hM) (hx i hi hs) t).mono
        fun t' ht => ⟨trivial, fun p hp => ?_, fun p hp => ?_⟩
      · rw [ht, if_pos hp.1, hp.1]
      · rw [ht, if_neg fun e => hp ⟨e, hs⟩]
    · simp only [if_neg hs]
      exact returns_some ⟨trivial, fun p hp => absurd hp.2 hs, fun p _ => rfl⟩
  · split
    · rename_i hs
      exact hw (i, c) i (Nat.zero_le _) hi ⟨rfl, hs⟩
    · rename_i hs
      refine hf (i, c) ?_
      rintro j _ _ ⟨rfl, h⟩
      exact hs h

/-- A row of the encode matrix times column `i` of the inverse. -/
theorem parityCoef_spec {enc : Vector UInt8 N} {inv : Vector UInt8 M} (hN : m * n ≤ N) (hM : n * n ≤ M)
    {f i : Nat} (hf : f < m) (hi : i < n) :
    parityCoef enc inv n f i =
      some (dotBytes n (fun j => cell enc (f * n + j)) fun j => cell inv (j * n + i)) := by
  have h : Returns (parityCoef enc inv n f i) fun s =>
      s = dotBytes n (fun j => cell enc (f * n + j)) fun j => cell inv (j * n + i) := by
    refine Returns.forUp (fun t s => s = dotBytes t (fun j => cell enc (f * n + j)) fun j => cell inv (j * n + i))
      (Nat.zero_le n) rfl fun j s _ hj hs => ?_
    have h1 : j * n + i < M := Nat.lt_of_lt_of_le (pos_lt hj hi) hM
    have h2 : f * n + j < N := Nat.lt_of_lt_of_le (pos_lt hf hj) hN
    rw [Nat.mul_comm n f, rd_eq inv h1, rd_eq enc h2, hs]
    exact returns_some (dotBytes_succ _ _ _).symm
  obtain ⟨s, hs, rfl⟩ := h
  exact hs

/-! ## The whole function -/

/-- The rows of `G` at the `n` lowest fragments outside `E`. -/
noncomputable def survivorRows (G : Matrix Nat (Fin n) GF256) (E : Finset Nat) : Matrix (Fin n) (Fin n) GF256 :=
  G.submatrix (fun i : Fin n => survivor E i) id

/-- Row `i` of `dec` computes fragment `l[i]` from the survivors: times their
rows it is row `l[i]` of `G`. -/
def DecodesRows (G : Matrix Nat (Fin n) GF256) (l : Vector UInt8 nerrs) (dec : Matrix Nat (Fin n) GF256) :
    Prop :=
  ∀ i, i < nerrs → dec i ᵥ* survivorRows G (erased l) = G (entry l i)

/-- The rows the two derivations produce: the encode rows times the inverse. -/
theorem decodeRows_spec {enc : Vector UInt8 N} (inv dec : Vector UInt8 M) {l : Vector UInt8 nerrs}
    (hN : m * n ≤ N) (hM : n * n ≤ M) (hd : nerrs * n ≤ M) (hl : ∀ i, i < nerrs → entry l i < m)
    (hid : ∀ r, r < n → ∀ c : Fin n, rowsOf n enc r c = if r = c then 1 else 0) :
    Returns (dataRows inv l n dec >>= parityRows enc inv l n) fun dec' =>
      ∀ i, i < nerrs → rowsOf n dec' i = rowsOf n enc (entry l i) ᵥ* matOf n n inv := by
  refine (rowsLoop hd (fun f => f < n) (x := fun f j => inv[n * f + j]?)
    (v := fun f j => cell inv (f * n + j)) (fun i _ hf j hj => ?_) dec).bind fun dec1 h1 => ?_
  · rw [Nat.mul_comm n]
    exact rd_eq inv (Nat.lt_of_lt_of_le (pos_lt hf hj) hM)
  refine (rowsLoop hd (fun f => n ≤ f) (x := parityCoef enc inv n)
    (v := fun f i => dotBytes n (fun j => cell enc (f * n + j)) fun j => cell inv (j * n + i))
    (fun i hi _ j hj => parityCoef_spec hN hM (hl i hi) hj) dec1).mono fun dec2 h2 i hi => ?_
  funext c
  rw [h2 i c hi]
  by_cases hf : entry l i < n
  · rw [if_neg (Nat.not_le.2 hf), h1 i c hi, if_pos hf]
    have hrow : rowsOf n enc (entry l i) = Pi.single ⟨entry l i, hf⟩ 1 := by
      funext j
      rw [hid _ hf j, Pi.single_apply]
      simp [Fin.ext_iff, eq_comm]
    rw [hrow, single_one_vecMul]
    rfl
  · rw [if_pos (Nat.not_lt.1 hf), mk_dotBytes]
    rfl

theorem gfGenDecodeMatrixSimple_spec {enc : Vector UInt8 N} {s : Scratch M I} {l : Vector UInt8 nerrs}
    (hN : m * n ≤ N) (hM : n * n ≤ M) (hd : nerrs * n ≤ M) (hI : n ≤ I)
    (hl : ∀ i, i < nerrs → entry l i < m) (hE : n ≤ passed (erased l) m)
    (hid : ∀ r, r < n → ∀ c : Fin n, rowsOf n enc r c = if r = c then 1 else 0) :
    Returns (gfGenDecodeMatrixSimple enc s l n m) fun p =>
      (∀ i, i < n → cell p.1.decode_index i = UInt8.ofNat (survivor (erased l) i)) ∧
      ((p.2 = 0 ∧ IsUnit (survivorRows (rowsOf n enc) (erased l)) ∧
          DecodesRows (rowsOf n enc) l (rowsOf n p.1.decode_matrix)) ∨
        (p.2 = -1 ∧ ¬ IsUnit (survivorRows (rowsOf n enc) (erased l)))) := by
  unfold gfGenDecodeMatrixSimple
  refine (fragInErr_spec hl).bind fun f hf => ?_
  refine (takeSurvivors_spec hf hN hM hI hE s.temp_matrix s.decode_index).bind fun p ⟨hb, hidx⟩ => ?_
  obtain ⟨b, idx⟩ := p
  refine (gfInvertMatrix_spec hM hM b s.invert_matrix).bind fun q hq => ?_
  obtain ⟨⟨tmp, inv⟩, ret⟩ := q
  simp only at hb hq hidx
  rw [hb] at hq
  rcases hq with ⟨rfl, hinv⟩ | ⟨rfl, hsing⟩
  · simp only [Int.lt_irrefl, if_false]
    have hrows := decodeRows_spec inv s.decode_matrix hN hM hd hl hid
    rw [Returns] at hrows
    obtain ⟨dec', he, hrow⟩ := hrows
    obtain ⟨dec1, he1, he2⟩ := Option.bind_eq_some_iff.1 he
    simp only [he1, he2, Option.bind_eq_bind, Option.bind_some]
    refine returns_some ⟨hidx, .inl ⟨rfl, ?_, fun i hi => ?_⟩⟩
    · exact IsUnit.of_mul_eq_one_right _ hinv
    · rw [hrow i hi, vecMul_vecMul]
      show _ ᵥ* (matOf n n inv * _) = _
      rw [survivorRows, hinv, vecMul_one]
  · simp only [show (-1 : Int) < 0 by decide, if_true]
    exact returns_some ⟨hidx, .inr ⟨rfl, hsing⟩⟩

/-- `idx` gives the `n` lowest indices outside `E`, in order, and they are below
`m`. -/
structure LowestOutside (E : Finset Nat) (n m : Nat) (idx : Nat → Nat) : Prop where
  outside : ∀ i, i < n → idx i < m ∧ idx i ∉ E
  increasing : ∀ i j, i < j → j < n → idx i < idx j
  lowest : ∀ r, r ∉ E → (∃ i, i < n ∧ idx i = r) ∨ ∀ i, i < n → idx i < r

theorem lowestOutside_of_survivor {E : Finset Nat} {idx : Nat → Nat} (hE : n ≤ passed E m)
    (h : ∀ i, i < n → idx i = survivor E i) : LowestOutside E n m idx := by
  refine ⟨fun i hi => ?_, fun i j hij hj => ?_, fun r hr => ?_⟩
  · rw [h i hi]
    exact ⟨survivor_lt_iff.2 (Nat.lt_of_lt_of_le hi hE), survivor_not_mem E i⟩
  · rw [h i (Nat.lt_trans hij hj), h j hj]
    exact survivor_strictMono E hij
  · rcases Nat.lt_or_ge (passed E r) n with hlt | hge
    · exact .inl ⟨_, hlt, (h _ hlt).trans (survivor_passed hr)⟩
    · refine .inr fun i hi => ?_
      rw [h i hi]
      exact survivor_lt_iff.2 (Nat.lt_of_lt_of_le hi hge)

/-- **The decode matrix**, for any encode matrix that begins with the identity,
any contents of the arrays and any list that leaves `n` fragments. `B` is the
matrix of the rows `decode_index` names. -/
theorem gfGenDecodeMatrixSimple_decodes (hnm : n < m) (hm : m ≤ 256) (enc : Vector UInt8 (m * n))
    (hid : ∀ r, r < n → ∀ c : Fin n, rowsOf n enc r c = if r = c then 1 else 0) (s : Scratch (m * n) m)
    (l : Vector UInt8 nerrs) (hlen : nerrs ≤ m) (hl : ∀ i, i < nerrs → entry l i < m)
    (hcard : (erased l).card ≤ m - n) :
    Returns (gfGenDecodeMatrixSimple enc s l n m) fun p =>
      let idx := fun i => (cell p.1.decode_index i).toNat
      let B : Matrix (Fin n) (Fin n) GF256 := (rowsOf n enc).submatrix (fun i => idx i) id
      LowestOutside (erased l) n m idx ∧ (p.2 = 0 ↔ IsUnit B) ∧ (p.2 = -1 ↔ ¬ IsUnit B) ∧
        (p.2 = 0 → ∀ i, i < nerrs → rowsOf n p.1.decode_matrix i ᵥ* B = rowsOf n enc (entry l i)) := by
  have hE : n ≤ passed (erased l) m := le_passed (by omega)
  refine (gfGenDecodeMatrixSimple_spec (Nat.le_refl _) (Nat.mul_le_mul_right n (Nat.le_of_lt hnm))
    (Nat.mul_le_mul_right n hlen) (Nat.le_of_lt hnm) hl hE hid).mono fun p ⟨hidx, hret⟩ => ?_
  have hsurv : ∀ i, i < n → (cell p.1.decode_index i).toNat = survivor (erased l) i := fun i hi => by
    have hlt : survivor (erased l) i < m := survivor_lt_iff.2 (Nat.lt_of_lt_of_le hi hE)
    rw [hidx i hi, UInt8.toNat_ofNat', Nat.mod_eq_of_lt (by omega)]
  have hB : (rowsOf n enc).submatrix (fun i : Fin n => (cell p.1.decode_index i).toNat) id =
      survivorRows (rowsOf n enc) (erased l) := by
    rw [survivorRows]
    exact congrArg (fun f => (rowsOf n enc).submatrix f id) (funext fun i : Fin n => hsurv i i.isLt)
  simp only [hB]
  refine ⟨lowestOutside_of_survivor hE hsurv, ?_⟩
  rcases hret with ⟨h0, hu, hdec⟩ | ⟨h1, hu⟩
  · rw [h0]
    exact ⟨iff_of_true rfl hu, iff_of_false (by decide) (not_not.2 hu), fun _ => hdec⟩
  · rw [h1]
    exact ⟨iff_of_false (by decide) hu, iff_of_true rfl hu, fun h => absurd h (by decide)⟩

/-- Three fragments, two of them listed, one twice. -/
theorem gfGenDecodeMatrixSimple_decodes_three : ∃ (enc : Vector UInt8 (3 * 1)) (l : Vector UInt8 3),
    enc = #v[1, 3, 7] ∧ l = #v[2, 0, 2] ∧
      Returns (gfGenDecodeMatrixSimple enc default l 1 3) fun p : Scratch (3 * 1) 3 × Int =>
        let idx := fun i => (cell p.1.decode_index i).toNat
        let B : Matrix (Fin 1) (Fin 1) GF256 := (rowsOf 1 enc).submatrix (fun i => idx i) id
        LowestOutside (erased l) 1 3 idx ∧ (p.2 = 0 ↔ IsUnit B) ∧ (p.2 = -1 ↔ ¬ IsUnit B) ∧
          (p.2 = 0 → ∀ i, i < 3 → rowsOf 1 p.1.decode_matrix i ᵥ* B = rowsOf 1 enc (entry l i)) := by
  refine ⟨#v[1, 3, 7], #v[2, 0, 2], rfl, rfl, @gfGenDecodeMatrixSimple_decodes 3 3 1 (by decide) (by decide)
    #v[1, 3, 7] (fun r hr c => ?_) default #v[2, 0, 2] (by decide) (by decide) (by decide)⟩
  obtain rfl : r = 0 := by omega
  obtain rfl : c = 0 := Subsingleton.elim _ _
  rfl

end

end ErasureCode.IsaEC
