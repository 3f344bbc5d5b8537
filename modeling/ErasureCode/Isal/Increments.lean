import ErasureCode.Core.Refinement
import ErasureCode.Isal.Mad

/-!
# Encoding by increments

A caller of `ec_encode_data_update` does not have to have all sources at hand: each
call adds some bytes of one source to the parities. What the parities stand for is
a sheet of columns, to which each call adds (`Columns.add`).

* `edit_refines`: a call does that, on any instruction set and with any table.
* `parity_of_columns`: so after any calls, and any stores of the caller between
  them, the parities are those of the columns.
* `increments_encode`: calls that go over every byte of every source an odd number
  of times, in any order, make the parities that `ec_encode_data` makes at once.
-/
namespace ErasureCode.Isal

open ErasureCode.Core

variable {N : Nat}

/-! ## Products add up -/

theorem dotBytes_xor (n : Nat) (c x y : Nat → UInt8) :
    dotBytes n c (fun j => x j ^^^ y j) = dotBytes n c x ^^^ dotBytes n c y := by
  induction n with
  | zero => exact UInt8.xor_zero.symm
  | succ n ih =>
    rw [dotBytes_succ, dotBytes_succ, dotBytes_succ, ih, xor_gfMul]
    ac_rfl

theorem dotBytes_zero (n : Nat) (c : Nat → UInt8) : dotBytes n c (fun _ => 0) = 0 := by
  induction n with
  | zero => rfl
  | succ n ih => rw [dotBytes_succ, ih, gfMul_comm, gfMul_zero, UInt8.xor_zero]

theorem dotBytes_single {n j₀ : Nat} (hj : j₀ < n) (c : Nat → UInt8) (d : UInt8) :
    dotBytes n c (fun j => if j = j₀ then d else 0) = gfMul d (c j₀) := by
  induction n with
  | zero => exact absurd hj (Nat.not_lt_zero j₀)
  | succ n ih =>
    rw [dotBytes_succ]
    by_cases hn : j₀ = n
    · subst hn
      have hrest : dotBytes j₀ c (fun j => if j = j₀ then d else 0) = dotBytes j₀ c fun _ => 0 :=
        dotBytes_congr (fun _ _ => rfl) fun j hj => if_neg (Nat.ne_of_lt hj)
      rw [if_pos rfl, hrest, dotBytes_zero, UInt8.zero_xor]
    · rw [ih (by omega), if_neg (Ne.symm hn), gfMul_comm 0, gfMul_zero, UInt8.xor_zero]

/-! ## The columns -/

/-- The table of coefficient 2. -/
theorem expanded_two : Expanded (Vector.ofFn fun i : Fin 32 => tableByte 2 i) (1 * 1) :=
  expanded_of_tables (f := fun _ => 2) fun x hx => by rw [cell_ofFn _ hx, Nat.mod_eq_of_lt hx]

/-- Byte `p` of source `j`. -/
abbrev Columns := Nat → Nat → UInt8

/-- The bytes `y` are added to source `vec_i`, from `off` on. -/
def Columns.add (x : Columns) (vec_i off len : Nat) (y : Nat → UInt8) : Columns := fun j p =>
  if j = vec_i ∧ off ≤ p ∧ p < off + len then x j p ^^^ y (p - off) else x j p

/-- Byte `p` of the parity of row `l`. -/
def parityByte (k : Nat) (v : Vector UInt8 N) (x : Columns) (l p : Nat) : UInt8 :=
  dotBytes k (coef v k l) fun j => x j p

theorem parityByte_add {k vec_i : Nat} (hi : vec_i < k) (v : Vector UInt8 N) (x : Columns) (off len : Nat)
    (y : Nat → UInt8) (l p : Nat) : parityByte k v (x.add vec_i off len y) l p =
      if off ≤ p ∧ p < off + len then parityByte k v x l p ^^^ gfMul (y (p - off)) (coef v k l vec_i)
      else parityByte k v x l p := by
  unfold parityByte Columns.add
  split
  · rename_i h
    rw [← dotBytes_single hi, ← dotBytes_xor]
    refine dotBytes_congr (fun _ _ => rfl) fun j _ => ?_
    by_cases hj : j = vec_i
    · rw [if_pos ⟨hj, h⟩, if_pos hj]
    · rw [if_neg fun h => hj h.1, if_neg hj, UInt8.xor_zero]
  · rename_i h
    exact dotBytes_congr (fun _ _ => rfl) fun j _ => if_neg fun hj => h hj.2

/-! ## The calls -/

/-- What a caller does: it updates the parities by `len` bytes of source `vec_i`, which
it has at `data`, at the offset `off`; or it stores a byte. -/
inductive Edit
  | update (vec_i : Nat) (data : Ptr) (off len : Nat)
  | store (q : Ptr) (b : UInt8)

/-- The columns that the parities stand for, and the other bytes of the memory. -/
structure Sheet where
  columns : Columns
  heap : Ptr → UInt8

section
variable (isa : Isa) (k : Nat) {rows : Nat} (L : Nat) (v : Vector UInt8 N) (parity : Vector Ptr rows)

def edit : Edit → Mem → Option Mem
  | .update vec_i data off len, mem =>
    ecEncodeDataUpdateOn len k rows vec_i v data (fun l => parity[l]?.map fun p => p.add off) mem isa
  | .store q b, mem => store mem q b

/-- The bytes of the parities. -/
abbrev ParityCells (q : Ptr) : Prop := StripCells parity (fun _ => True) 0 L q

/-- In a memory that has the buffers of `mem`: the update is for a source and inside
the parities, and its bytes can be read and are not the parities'; nor is the byte
that is stored. -/
def editSpec (mem : Mem) : Spec Edit Sheet where
  pre
    | .update vec_i data off len, _ =>
      vec_i < k ∧ off + len ≤ L ∧ Valid mem data len ∧ ∀ i, i < len → ¬ ParityCells L parity (data.add i)
    | .store q _, _ => (load mem q).isSome ∧ ¬ ParityCells L parity q
  next
    | .update vec_i data off len, s => { s with columns := s.columns.add vec_i off len fun i => s.heap (data.add i) }
    | .store q b, s => { s with heap := fun q' => if q' = q then b else s.heap q' }

/-- The memory `t` holds the sheet. -/
structure Holds (mem t : Mem) (s : Sheet) : Prop where
  size : t.size = mem.size
  same : ∀ q, (load t q).isSome ↔ (load mem q).isSome
  sums : ∀ l, l < rows → ∀ p, p < L → stripByte t parity l p = parityByte k v s.columns l p
  heap : ∀ q, (load mem q).isSome → ¬ ParityCells L parity q → byteAt t q = s.heap q

end

section
variable {isa : Isa} {k rows L : Nat} {v : Vector UInt8 N} {parity : Vector Ptr rows} {mem t : Mem} {s : Sheet}

/-- The bytes that an update writes. -/
theorem windowCells_iff {off len : Nat} {q : Ptr} : DestCells rows 0 len (fun l => (cell parity l).add off) q ↔
    StripCells parity (fun _ => True) off (off + len) q := by
  constructor
  · rintro ⟨l, hl, i, -, hi, rfl⟩
    exact ⟨l, hl, trivial, off + i, by omega, by omega, Ptr.add_add _ _ _⟩
  · rintro ⟨l, hl, -, p, h1, h2, rfl⟩
    exact ⟨l, hl, p - off, Nat.zero_le _, by omega, by rw [Ptr.add_add, Nat.add_sub_cancel' h1]⟩

theorem Holds.job (hroom : rows * k * 32 ≤ N) (hv : Expanded v (rows * k)) (hp : Strips mem parity L)
    (h : Holds k L v parity mem t s) {vec_i off len : Nat} {data : Ptr}
    (hpre : (editSpec k L parity mem).pre (.update vec_i data off len) s) {T : Ptr → UInt8}
    (hT : ∀ l, l < rows → ∀ p, p < L → T ((cell parity l).add p) =
      parityByte k v (s.columns.add vec_i off len fun i => s.heap (data.add i)) l p) :
    UpdateJob t len k rows vec_i v data (fun l => parity[l]?.map fun p => p.add off) (fun l => (cell parity l).add off) T := by
  obtain ⟨hi, hin, hdata, hapart⟩ := hpre
  refine
    { room := hroom
      expanded := hv
      source := hi
      dest := fun l hl => by rw [rd_eq parity hl, Option.map_some]
      src := fun i hi => (h.same _).2 (hdata i hi)
      parity := fun l hl i hi => ?_
      disj := fun l hl i hi i' hi' e => ?_
      apart := fun l hl l' hl' i hi i' hi' e => ?_
      target := fun l hl i hi => ?_ }
  · rw [Ptr.add_add]
    exact (h.same _).2 (hp.valid l hl _ (by omega))
  · rw [Ptr.add_add] at e
    exact hapart i hi ⟨l, hl, trivial, off + i', by omega, by omega, e⟩
  · rw [Ptr.add_add, Ptr.add_add] at e
    obtain ⟨rfl, e⟩ := hp.add_inj hl hl' (by omega) (by omega) e
    exact ⟨rfl, by omega⟩
  · rw [Ptr.add_add, hT l hl _ (by omega), parityByte_add (by assumption), if_pos ⟨by omega, by omega⟩,
      h.heap _ (hdata i hi) (hapart i hi), Nat.add_sub_cancel_left, ← h.sums l hl _ (by omega), stripByte]

theorem Holds.update (hp : Strips mem parity L) (h : Holds k L v parity mem t s) {vec_i off len : Nat} (hi : vec_i < k)
    (hin : off + len ≤ L) {y : Nat → UInt8} {T : Ptr → UInt8} (hT : ∀ l, l < rows → ∀ p, p < L →
      T ((cell parity l).add p) = parityByte k v (s.columns.add vec_i off len y) l p) {t' : Mem}
    (hw : Written t t' (StripCells parity (fun _ => True) off (off + len)) T) :
    Holds k L v parity mem t' { s with columns := s.columns.add vec_i off len y } := by
  have hcell : ∀ q, StripCells parity (fun _ => True) off (off + len) q → ParityCells L parity q := by
    rintro q ⟨l, hl, hS, p, -, h2, rfl⟩
    exact ⟨l, hl, hS, p, Nat.zero_le p, by omega, rfl⟩
  refine
    { size := hw.size.trans h.size
      same := fun q => ?_
      sums := fun l hl p hlt => ?_
      heap := fun q hq hn => (hw.byteAt_frame fun hd => hn (hcell q hd)).trans (h.heap q hq hn) }
  · rw [← h.same]
    by_cases hd : StripCells parity (fun _ => True) off (off + len) q
    · rw [hw.set q hd]
      obtain ⟨l, hl, -, p, -, h2, rfl⟩ := hd
      exact iff_of_true rfl ((h.same _).2 (hp.valid l hl p (by omega)))
    · rw [hw.frame q hd]
  · by_cases hwin : off ≤ p ∧ p < off + len
    · rw [stripByte, byteAt, hw.set _ ⟨l, hl, trivial, p, hwin.1, hwin.2, rfl⟩, hT l hl p hlt, Option.getD_some]
    · rw [parityByte_add hi, if_neg hwin, ← h.sums l hl p hlt]
      refine hw.byteAt_frame ?_
      rintro ⟨l', hl', -, p', h1, h2, e⟩
      obtain ⟨-, rfl⟩ := hp.add_inj hl hl' hlt (by omega) e
      exact hwin ⟨h1, h2⟩

theorem Holds.store (h : Holds k L v parity mem t s) {q : Ptr} {b : UInt8} (hq : (load mem q).isSome)
    (hn : ¬ ParityCells L parity q) {t' : Mem} (hsize : t'.size = t.size)
    (hload : ∀ q', load t' q' = if q' = q then some b else load t q') :
    Holds k L v parity mem t' { s with heap := fun q' => if q' = q then b else s.heap q' } := by
  refine
    { size := hsize.trans h.size
      same := fun q' => ?_
      sums := fun l hl p hlt => ?_
      heap := fun q' hq' hn' => ?_ }
  · rw [← h.same, hload]
    split
    · rename_i e
      exact iff_of_true rfl ((h.same _).2 (e ▸ hq))
    · rfl
  · rw [stripByte, byteAt, hload, if_neg fun e => hn ⟨l, hl, trivial, p, Nat.zero_le p, hlt, e.symm⟩]
    exact h.sums l hl p hlt
  · rw [byteAt, hload]
    dsimp only
    split
    · rfl
    · exact h.heap q' hq' hn'

/-- **One call.** -/
theorem edit_refines (isa : Isa) (hroom : rows * k * 32 ≤ N) (hv : Expanded v (rows * k)) (hp : Strips mem parity L) :
    Refines (edit isa k v parity) (editSpec k L parity mem) (Holds k L v parity mem) := by
  intro a t s h hpre
  cases a with
  | update vec_i data off len =>
    obtain ⟨T, hT⟩ := hp.exists_values (parityByte k v (s.columns.add vec_i off len fun i => s.heap (data.add i)))
    have c := h.job hroom hv hp hpre hT
    rw [edit, ecEncodeDataUpdateOn_eq isa c]
    refine (ecEncodeDataUpdate_spec c).mono fun t' ht' => ?_
    exact h.update hp hpre.1 hpre.2.1 hT (ht'.congr fun q => windowCells_iff)
  | store q b =>
    exact (store_spec ((h.same q).2 hpre.1) b).mono fun t' ⟨hsize, hload⟩ => h.store hpre.1 hpre.2 hsize hload

/-- **The parities of the columns.** After any calls, with any stores of the caller
between them, each of which finds what it needs, the parities are those of the
columns with all that has been added, and the other bytes are what the stores made
them. -/
theorem parity_of_columns (isa : Isa) (hroom : rows * k * 32 ≤ N) (hv : Expanded v (rows * k)) (hp : Strips mem parity L)
    {x : Columns} (hx : ∀ l, l < rows → ∀ p, p < L → stripByte mem parity l p = parityByte k v x l p) {w : List Edit}
    (hw : (editSpec k L parity mem).Allows w ⟨x, byteAt mem⟩) :
    Returns (run (edit isa k v parity) w mem) fun t =>
      Holds k L v parity mem t ((editSpec k L parity mem).after w ⟨x, byteAt mem⟩) :=
  (edit_refines isa hroom hv hp).run ⟨rfl, fun _ => Iff.rfl, hx, fun _ _ _ => rfl⟩ hw

/-- Two bytes are added; the caller changes the second, and adds it again. -/
theorem parity_of_columns_three :
    let v : Vector UInt8 32 := Vector.ofFn fun i => tableByte 2 i
    let mem : Mem := #[#[3, 4], #[0, 0]]
    let w := [Edit.update 0 ⟨0, 0⟩ 0 2, Edit.store ⟨0, 1⟩ 9, Edit.update 0 ⟨0, 1⟩ 1 1]
    Returns (run (edit .avx2 1 v (ownBuffers 1 1)) w mem) fun t =>
      Holds 1 2 v (ownBuffers 1 1) mem t ((editSpec 1 2 (ownBuffers 1 1) mem).after w ⟨fun _ _ => 0, byteAt mem⟩) := by
  intro v mem w
  have hp : Strips mem (ownBuffers 1 1) 2 := by decide
  have hout : ∀ q : Ptr, q.buf = 0 → ¬ ParityCells 2 (ownBuffers 1 1) q := by
    rintro q hq ⟨l, hl, -, p, -, -, e⟩
    obtain rfl : l = 0 := by omega
    rw [e] at hq
    exact absurd hq (by simp [ownBuffers, cell])
  have hfirst : (editSpec 1 2 (ownBuffers 1 1) mem).pre (.update 0 ⟨0, 0⟩ 0 2) ⟨fun _ _ => 0, byteAt mem⟩ :=
    ⟨by decide, by decide, by decide, fun _ _ => hout _ rfl⟩
  have hagain : ∀ s, (editSpec 1 2 (ownBuffers 1 1) mem).pre (.update 0 ⟨0, 1⟩ 1 1) s :=
    fun s => ⟨by decide, by decide, by decide, fun _ _ => hout _ rfl⟩
  refine parity_of_columns .avx2 (by decide) expanded_two hp (fun l hl p hlt => ?_)
    ⟨hfirst, ⟨by decide, hout _ rfl⟩, hagain _, trivial⟩
  obtain rfl : l = 0 := by omega
  obtain rfl | rfl : p = 0 ∨ p = 1 := by omega
  all_goals exact (dotBytes_zero 1 _).symm

/-! ## Every byte an odd number of times -/

/-- The call for `len` bytes of source `vec_i`, from `off` on. -/
structure Increment where
  vec_i : Nat
  off : Nat
  len : Nat

/-- The sources are where `ec_encode_data` would find them. -/
def Increment.edit {k : Nat} (source : Vector Ptr k) (c : Increment) : Edit :=
  .update c.vec_i ((cell source c.vec_i).add c.off) c.off c.len

/-- It goes over byte `p` of source `j`. -/
def Increment.Covers (c : Increment) (j p : Nat) : Prop := j = c.vec_i ∧ c.off ≤ p ∧ p < c.off + c.len

instance (c : Increment) (j p : Nat) : Decidable (c.Covers j p) :=
  inferInstanceAs (Decidable (j = c.vec_i ∧ c.off ≤ p ∧ p < c.off + c.len))

theorem add_increment (source : Vector Ptr k) (c : Increment) (x : Columns) (f : Ptr → UInt8) (j p : Nat) :
    x.add c.vec_i c.off c.len (fun i => f (((cell source c.vec_i).add c.off).add i)) j p =
      if c.Covers j p then x j p ^^^ f ((cell source j).add p) else x j p := by
  by_cases h : c.Covers j p
  · obtain ⟨hj, h1, h2⟩ := h
    refine (if_pos ⟨hj, h1, h2⟩).trans ?_
    dsimp only
    rw [if_pos ⟨hj, h1, h2⟩, Ptr.add_add, Nat.add_sub_cancel' h1, hj]
  · exact (if_neg h).trans (if_neg h).symm

theorem after_increments (source : Vector Ptr k) (ws : List Increment) (x : Columns) (f : Ptr → UInt8) :
    ((editSpec k L parity mem).after (ws.map (Increment.edit source)) ⟨x, f⟩).heap = f ∧ ∀ j p,
      ((editSpec k L parity mem).after (ws.map (Increment.edit source)) ⟨x, f⟩).columns j p =
        if (ws.countP fun c => c.Covers j p) % 2 = 1 then x j p ^^^ f ((cell source j).add p) else x j p := by
  induction ws generalizing x with
  | nil => exact ⟨rfl, fun j p => rfl⟩
  | cons c ws ih =>
    obtain ⟨hheap, hcols⟩ := ih (x.add c.vec_i c.off c.len fun i => f (((cell source c.vec_i).add c.off).add i))
    refine ⟨hheap, fun j p => (hcols j p).trans ?_⟩
    rw [List.countP_cons, add_increment]
    by_cases h : c.Covers j p
    · -- what is added twice is gone
      rw [if_pos h, if_pos (decide_eq_true h), UInt8.xor_assoc, UInt8.xor_self, UInt8.xor_zero]
      obtain e | e := Nat.mod_two_eq_zero_or_one (ws.countP fun d => d.Covers j p)
      · rw [if_neg (by omega), if_pos (by omega)]
      · rw [if_pos e, if_neg (by omega)]
    · rw [if_neg h, if_neg (fun e => h (of_decide_eq_true e)), Nat.add_zero]

/-- When nothing else was stored, only the parities are written. -/
theorem Holds.written (hp : Strips mem parity L) (h : Holds k L v parity mem t s) (hs : s.heap = byteAt mem)
    {T : Ptr → UInt8} (hT : ∀ l, l < rows → ∀ p, p < L → T ((cell parity l).add p) = parityByte k v s.columns l p) :
    Written mem t (ParityCells L parity) T := by
  refine ⟨h.size, fun q hq => ?_, fun q hq => ?_⟩
  · obtain ⟨l, hl, -, p, -, hlt, rfl⟩ := hq
    rw [load_eq ((h.same _).2 (hp.valid l hl p hlt)), hT l hl p hlt, ← h.sums l hl p hlt, stripByte]
  · by_cases hacc : (load mem q).isSome
    · rw [load_eq ((h.same q).2 hacc), h.heap q hacc hq, hs, load_eq hacc]
    · rw [Option.not_isSome_iff_eq_none.1 hacc, Option.not_isSome_iff_eq_none.1 fun ht => hacc ((h.same q).1 ht)]

theorem allows_increments {source : Vector Ptr k} (hw : Windows mem k rows L (cell source) (cell parity))
    {ws : List Increment} (hin : ∀ c ∈ ws, c.vec_i < k ∧ c.off + c.len ≤ L) (s : Sheet) :
    (editSpec k L parity mem).Allows (ws.map (Increment.edit source)) s := by
  induction ws generalizing s with
  | nil => trivial
  | cons c ws ih =>
    obtain ⟨hc, hle⟩ := hin c List.mem_cons_self
    refine ⟨⟨hc, hle, fun i hi => ?_, fun i hi => ?_⟩, ih (fun d hd => hin d (List.mem_cons_of_mem c hd)) _⟩
    · rw [Ptr.add_add]
      exact hw.src _ hc _ (by omega)
    · rw [Ptr.add_add]
      rintro ⟨l, hl, -, p, -, hp, e⟩
      exact hw.disj _ hc l hl _ (by omega) p hp e

/-- **Increments encode.** On parities of zeros, calls in any order that go over every
byte of every source an odd number of times leave the memory that one call of
`ec_encode_data` leaves, whatever either is dispatched to. -/
theorem increments_encode (isa isa' : Isa) (hk : 0 < k) (hroom : rows * k * 32 ≤ N) (hv : Expanded v (rows * k))
    {source : Vector Ptr k} (hp : Strips mem parity L) (hw : Windows mem k rows L (cell source) (cell parity))
    (hzero : ∀ l, l < rows → ∀ p, p < L → stripByte mem parity l p = 0) {ws : List Increment}
    (hin : ∀ c ∈ ws, c.vec_i < k ∧ c.off + c.len ≤ L)
    (hodd : ∀ j, j < k → ∀ p, p < L → (ws.countP fun c => c.Covers j p) % 2 = 1) :
    run (edit isa k v parity) (ws.map (Increment.edit source)) mem =
      ecEncodeDataOn L k rows v (fun j => source[j]?) (fun l => parity[l]?) mem isa' := by
  have hx : ∀ l, l < rows → ∀ p, p < L → stripByte mem parity l p = parityByte k v (fun _ _ => 0) l p :=
    fun l hl p hlt => (hzero l hl p hlt).trans (dotBytes_zero k _).symm
  obtain ⟨t, he, ht⟩ := parity_of_columns isa hroom hv hp hx (allows_increments hw hin _)
  obtain ⟨T, hT⟩ := hp.exists_values fun l p => dotBytes k (coef v k l) fun j => byteAt mem ((cell source j).add p)
  have hinc := ht.written hp (after_increments source ws _ _).1 fun l hl p hlt => (hT l hl p hlt).trans
    (dotBytes_congr (fun _ _ => rfl) fun j hj => by
      rw [(after_increments source ws _ _).2, if_pos (hodd j hj p hlt), UInt8.zero_xor])
  have c : Job mem L k rows v (fun j => source[j]?) (fun l => parity[l]?) (cell source) (cell parity) T :=
    { room := hroom
      expanded := hv
      src := fun j hj => rd_eq source hj
      dest := fun l hl => rd_eq parity hl
      windows := hw
      target := fun l hl p _ hlt => hT l hl p (by omega) }
  rw [ecEncodeDataOn_eq isa' c hk]
  have hcells : ∀ q, DestCells rows 0 L (cell parity) q ↔ ParityCells L parity q := fun q =>
    ⟨fun ⟨l, hl, h⟩ => ⟨l, hl, trivial, h⟩, fun ⟨l, hl, _, h⟩ => ⟨l, hl, h⟩⟩
  obtain ⟨t', he', ht'⟩ := c.base
  obtain rfl := hinc.unique (ht'.congr hcells)
  exact he.trans he'.symm

end

/-- One source in two steps, against the SSE encoder. -/
theorem increments_encode_two :
    let v : Vector UInt8 32 := Vector.ofFn fun i => tableByte 2 i
    let mem : Mem := #[Array.replicate 17 3, Array.replicate 17 0]
    run (edit .base 1 v (ownBuffers 1 1)) ([⟨0, 9, 8⟩, ⟨0, 0, 9⟩].map (Increment.edit (ownBuffers 0 1))) mem =
      ecEncodeDataOn 17 1 1 v (fun j => (ownBuffers 0 1)[j]?) (fun l => (ownBuffers 1 1)[l]?) mem .sse := by
  intro v mem
  have hw : Windows mem 1 1 17 (cell (ownBuffers 0 1)) (cell (ownBuffers 1 1)) := by
    refine ⟨by decide, by decide, fun j hj l hl i _ i' _ e => ?_⟩
    obtain ⟨rfl, rfl⟩ : j = 0 ∧ l = 0 := by omega
    exact Nat.zero_ne_one (congrArg Ptr.buf e)
  exact increments_encode .base .sse (by decide) (by decide) expanded_two (by decide) hw (by decide) (by decide) (by decide)

end ErasureCode.Isal
