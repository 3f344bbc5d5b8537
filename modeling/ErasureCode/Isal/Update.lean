import ErasureCode.Isal.DotProd

/-!
# Updates of the parity

`ec_encode_data_update_base` adds the products of one source to parities that are
already there, byte by byte, the rows one after the other.

* `ecEncodeDataUpdate_spec`: when the parities are apart from each other and from
  the source, every byte of theirs becomes what it was plus the product.
-/
namespace ErasureCode.Isal

open ErasureCode.Core

variable {N : Nat}

/-- One parity byte: `dest[l][i]`, plus the product for `data[i]`.
mirrors lib/isa-l/erasure_code/ec_base.c:326-329 -/
def updateByte (k vec_i : Nat) (v : Vector UInt8 N) (data : Ptr) (dest : Nat → Option Ptr) (l i : Nat) (mem : Mem) :
    Option Mem := do
  let s ← load mem ((← dest l).add i)
  let x ← load mem (data.add i)
  let s := s ^^^ gfMul x (← v[vec_i * 32 + l * k * 32 + 1]?)
  store mem ((← dest l).add i) s

/-- mirrors lib/isa-l/erasure_code/ec_base.c:318-333 -/
def ecEncodeDataUpdate (len k rows vec_i : Nat) (v : Vector UInt8 N) (data : Ptr) (dest : Nat → Option Ptr)
    (mem : Mem) : Option Mem :=
  forUp 0 rows mem fun l mem => forUp 0 len mem fun i mem => updateByte k vec_i v data dest l i mem

/-- A call of `ec_encode_data_update`: the tables are those that `ec_init_tables`
makes, the parities are apart from each other and from the source, and `T` gives
them their bytes. The tables are below 2^31 bytes, as for a `Job`. -/
structure UpdateJob (mem : Mem) (len k rows vec_i : Nat) (v : Vector UInt8 N) (data : Ptr) (dest : Nat → Option Ptr)
    (dp : Nat → Ptr) (T : Ptr → UInt8) : Prop where
  room : rows * k * 32 ≤ N
  expanded : Expanded v (rows * k)
  source : vec_i < k
  dest : ∀ l, l < rows → dest l = some (dp l)
  src : Valid mem data len
  parity : ∀ l, l < rows → Valid mem (dp l) len
  disj : ∀ l, l < rows → ∀ i, i < len → ∀ i', i' < len → data.add i ≠ (dp l).add i'
  apart : ∀ l, l < rows → ∀ l', l' < rows → ∀ i, i < len → ∀ i', i' < len →
    (dp l).add i = (dp l').add i' → l = l' ∧ i = i'
  target : ∀ l, l < rows → ∀ i, i < len → T ((dp l).add i) =
    byteAt mem ((dp l).add i) ^^^ gfMul (byteAt mem (data.add i)) (coef v k l vec_i)

section
variable {mem t : Mem} {len k rows vec_i : Nat} {v : Vector UInt8 N} {data : Ptr} {dest : Nat → Option Ptr}
  {dp : Nat → Ptr} {T : Ptr → UInt8} {D : Ptr → Prop}

/-- Writes to the parities leave the source alone. -/
theorem UpdateJob.data_byte (c : UpdateJob mem len k rows vec_i v data dest dp T) (ht : Written mem t D T)
    (hD : ∀ q, D q → DestCells rows 0 len dp q) {i : Nat} (hi : i < len) :
    byteAt t (data.add i) = byteAt mem (data.add i) := by
  refine ht.byteAt_frame fun hd => ?_
  obtain ⟨l, hl, i', -, hi', e⟩ := hD _ hd
  exact c.disj l hl i hi i' hi' e

theorem updateByte_spec (c : UpdateJob mem len k rows vec_i v data dest dp T) (ht : Written mem t D T)
    (hD : ∀ q, D q → DestCells rows 0 len dp q) {l i : Nat} (hl : l < rows) (hi : i < len)
    (hnew : ¬ D ((dp l).add i)) :
    Returns (updateByte k vec_i v data dest l i t) fun t' => Written t t' (fun q => q = (dp l).add i) T := by
  have hdest : (load t ((dp l).add i)).isSome := ht.isSome (c.parity l hl i hi)
  have htable : l * k + vec_i < rows * k := pos_lt hl c.source
  have hroom := c.room
  unfold updateByte
  simp only [c.dest l hl, Option.bind_eq_bind, Option.bind_some, load_eq hdest, load_eq (ht.isSome (c.src i hi)),
    rd_eq v (show vec_i * 32 + l * k * 32 + 1 < N by omega)]
  refine (store_spec hdest _).mono fun t' ⟨hsize, hload⟩ => ⟨hsize, fun q hq => ?_, fun q hq => ?_⟩
  · rw [hload, if_pos hq, hq, c.target l hl i hi, ht.byteAt_frame hnew, c.data_byte ht hD hi]
    rfl
  · rw [hload, if_neg hq]

/-- **The base encoder.** -/
theorem ecEncodeDataUpdate_spec (c : UpdateJob mem len k rows vec_i v data dest dp T) :
    Returns (ecEncodeDataUpdate len k rows vec_i v data dest mem) fun mem' =>
      Written mem mem' (DestCells rows 0 len dp) T := by
  unfold ecEncodeDataUpdate
  refine (forUp_written (W := fun l q => ∃ i, 0 ≤ i ∧ i < len ∧ q = (dp l).add i) (T := T) (Nat.zero_le rows)
    fun l t _ hl ht => ?_).mono fun t ht => ht.congr fun q => ?_
  · refine forUp_written (Nat.zero_le len) fun i u _ hi hu => ?_
    refine updateByte_spec c (ht.trans hu) (fun q hq => ?_) hl hi fun hd => ?_
    · rcases hq with ⟨l', -, hl', i', h0, hi', rfl⟩ | ⟨i', h0, hi', rfl⟩
      · exact ⟨l', by omega, i', h0, hi', rfl⟩
      · exact ⟨l, hl, i', h0, by omega, rfl⟩
    · -- a byte of an earlier row or of this one, but not this one
      rcases hd with ⟨l', -, hl', i', -, hi', e⟩ | ⟨i', -, hi', e⟩
      · obtain ⟨rfl, -⟩ := c.apart l hl l' (by omega) i hi i' hi' e
        exact Nat.lt_irrefl l hl'
      · obtain ⟨-, rfl⟩ := c.apart l hl l hl i hi i' (by omega) e
        exact Nat.lt_irrefl i hi'
  · constructor
    · rintro ⟨l, -, hl, h⟩
      exact ⟨l, hl, h⟩
    · rintro ⟨l, hl, h⟩
      exact ⟨l, Nat.zero_le l, hl, h⟩

end

end ErasureCode.Isal
