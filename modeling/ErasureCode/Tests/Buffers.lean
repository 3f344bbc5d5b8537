import ErasureCode.Core.Alloc
import ErasureCode.IsaEC.DecodeMatrix

/-!
# The strips of the test programs

The programs under `test/` give every strip a buffer of its own, from
`posix_memalign`, whose contents are not specified, or in a `vector`. They fill
strips byte by byte, copy all of them to new buffers, overwrite the copies they
list and compare the copies with the originals at the end.

`Buffers mem a c len`: the memory is `c` buffers, those from `a` on of `len` bytes
each. Every step either appends a buffer (`allocate_spec`) or writes into the ones there are
(`Buffers.written`, `Buffers.rewritten`).
-/
namespace ErasureCode.Tests

open ErasureCode.Core IsaEC

variable {k n a b c d len err_num : Nat}

/-! ## What the programs do with them -/

/-- A buffer for `len` bytes. Buffer `x` holds `raw x`: anything when it comes from
`posix_memalign`, zeros in a `vector`. -/
def alloc (raw : Nat → Vector UInt8 len) (mem : Mem) : Mem × Ptr := (mem.push (raw mem.size).toArray, ⟨mem.size, 0⟩)

def zeros (len : Nat) : Nat → Vector UInt8 len := fun _ => Vector.replicate len 0

/-- mirrors test/strip_wise.cpp:74-83 -/
def allocStrips (raw : Nat → Vector UInt8 len) (c : Nat) (mem : Mem) : Option (Vector Ptr c × Mem) :=
  forUp 0 c (Vector.replicate c default, mem) fun i (v, mem) => do
    let (mem, p) := alloc raw mem
    return (← wr v i p, mem)

/-- `for (j = 0; j < len; j++) p[j] = f(j);` -/
def fill (mem : Mem) (p : Ptr) (f : Nat → UInt8) (len : Nat) : Option Mem :=
  forUp 0 len mem fun j mem => store mem (p.add j) (f j)

/-- The value is an `int`, of which the low byte is stored. -/
def memset (mem : Mem) (p : Ptr) (x len : Nat) : Option Mem := fill mem p (fun _ => UInt8.ofNat x) len

/-- mirrors test/strip_wise.cpp:98-105 -/
def setStrips (v : Vector Ptr c) (x : Nat → Nat) (len : Nat) (mem : Mem) : Option Mem :=
  forUp 0 c mem fun i mem => do memset mem (← v[i]?) (x i) len

/-- `push_back`, `resize(len)`, and the bytes one after another.
mirrors test/testEC.cpp:44-62 -/
def fillVectors (f : Nat → Nat → UInt8) (len c : Nat) (mem : Mem) : Option (Vector Ptr c × Mem) :=
  forUp 0 c (Vector.replicate c default, mem) fun i (v, mem) => do
    let (mem, p) := alloc (zeros len) mem
    let mem ← fill mem p (f i) len
    return (← wr v i p, mem)

/-- The data strips, and after them the parity strips. -/
def strip (in_ : Vector Ptr k) (out : Vector Ptr n) (i : Nat) : Option Ptr := if i < k then in_[i]? else out[i - k]?

/-- mirrors test/strip_wise.cpp:124-134, test/testEC.cpp:83-85 -/
def copyStrips (raw : Nat → Vector UInt8 len) (in_ : Vector Ptr k) (out : Vector Ptr n) (mem : Mem) :
    Option (Vector Ptr (k + n) × Mem) :=
  forUp 0 (k + n) (Vector.replicate (k + n) default, mem) fun i (v, mem) => do
    let (mem, p) := alloc raw mem
    let mem ← memcpy mem p (← strip in_ out i) len
    return (← wr v i p, mem)

/-- mirrors test/strip_wise.cpp:142-148, test/testEC.cpp:93-99 -/
def eraseStrips (matrix : Vector Ptr c) (err_list : Vector UInt8 err_num) (len : Nat) (mem : Mem) : Option Mem :=
  forUp 0 err_num mem fun i mem => do fill mem (← matrix[(← err_list[i]?).toNat]?) (fun _ => 255) len

/-- Whether `len` bytes at `p` and at `q` differ. -/
def memcmp (mem : Mem) (p q : Ptr) (len : Nat) : Option Bool :=
  forUp 0 len false fun x differ => do return differ || (← load mem (p.add x)) != (← load mem (q.add x))

/-- Whether all strips of the list are the same; the first that differs ends the loop. -/
def allSame (differs : Nat → Option Bool) : List Nat → Option Bool
  | [] => some true
  | i :: rest => do if ← differs i then return false else allSame differs rest

/-! ## Buffers of one length -/

/-- The memory is `c` buffers, those from `a` on of `len` bytes. -/
structure Buffers (mem : Mem) (a c len : Nat) : Prop where
  size : mem.size = c
  le : a ≤ c
  inside : ∀ q, a ≤ q.buf → ((load mem q).isSome ↔ q.buf < c ∧ q.off < len)

theorem Buffers.init (mem : Mem) (len : Nat) : Buffers mem mem.size mem.size len :=
  ⟨rfl, Nat.le_refl _, fun q hq => by simp [load, Nat.not_lt.2 hq]⟩

section
variable {mem mem' : Mem}

/-- Consecutive buffers are strips. -/
theorem Buffers.exact (h : Buffers mem a c len) (ha : a ≤ b) (hb : b + d ≤ c) :
    ExactStrips mem (ownBuffers b d) len := by
  refine ⟨⟨fun r hr p hp => ?_, fun r hr r' hr' hne p _ p' _ e => ?_⟩, fun r hr p hp => ?_⟩
  · rw [cell_ownBuffers hr, h.inside _ (by simp; omega)]
    exact ⟨by simp; omega, by simpa using hp⟩
  · rw [cell_ownBuffers hr, cell_ownBuffers hr'] at e
    have := congrArg Ptr.buf e
    simp only [Ptr.add_buf] at this
    omega
  · rw [cell_ownBuffers hr, ← Option.not_isSome_iff_eq_none, h.inside _ (by simp; omega)]
    simp only [Ptr.add_buf, Ptr.add_off]
    omega

theorem Buffers.written {D : Ptr → Prop} {T : Ptr → UInt8} (h : Buffers mem a c len) (hw : Written mem mem' D T)
    (hD : ∀ q, D q → (load mem q).isSome) : Buffers mem' a c len := by
  refine ⟨hw.size.trans h.size, h.le, fun q ha => ?_⟩
  rw [← h.inside q ha]
  by_cases hq : D q
  · rw [hw.set q hq]
    simp [hD q hq]
  · rw [hw.frame q hq]

theorem Buffers.rewritten {v : Vector Ptr d} {S : Nat → Prop} {L K : Nat} {val : Nat → Nat → UInt8}
    (h : Buffers mem a c len) (hw : Rewritten mem mem' v S L val) (hv : Strips mem v K) (hL : L ≤ K) :
    Buffers mem' a c len := by
  refine ⟨hw.size.trans h.size, h.le, fun q ha => ?_⟩
  rw [← h.inside q ha]
  by_cases hq : StripCells v S 0 L q
  · obtain ⟨r, hr, hS, p, -, hp, rfl⟩ := hq
    rw [hw.set r hr hS p hp]
    simp [hv.valid r hr p (by omega)]
  · rw [hw.frame q hq]

/-- Strips in other buffers are left alone. -/
theorem rewritten_apart {b' d' L : Nat} {S : Nat → Prop} {val : Nat → Nat → UInt8}
    (hw : Rewritten mem mem' (ownBuffers b d) S L val) (hb : b' + d' ≤ b) {r : Nat} (hr : r < d') (p : Nat) :
    stripByte mem' (ownBuffers b' d') r p = stripByte mem (ownBuffers b' d') r p := by
  rw [stripByte, byteAt, hw.frame, stripByte, byteAt]
  rintro ⟨r', hr', -, p', -, -, e⟩
  rw [cell_ownBuffers hr, cell_ownBuffers hr'] at e
  have := congrArg Ptr.buf e
  simp only [Ptr.add_buf] at this
  omega

/-! ## Appending buffers -/

theorem alloc_spec (raw : Nat → Vector UInt8 len) (h : Buffers mem a c len) :
    (alloc raw mem).2 = ⟨c, 0⟩ ∧ Buffers (alloc raw mem).1 a (c + 1) len ∧
      Allocated mem (alloc raw mem).1 1 len fun _ p => cell (raw c) p := by
  obtain ⟨rfl, hle, hin⟩ := h
  have hload : ∀ q, load (alloc raw mem).1 q =
      if q.buf = mem.size then (raw mem.size)[q.off]? else load mem q := fun q => by
    unfold load alloc
    rw [Array.getElem?_push]
    split
    · simp
    · rfl
  refine ⟨rfl, ⟨by simp [alloc], Nat.le_succ_of_le hle, fun q ha => ?_⟩,
    ⟨by simp [alloc], fun q hq => ?_, fun x hx p hp => ?_⟩⟩
  · rw [hload]
    split
    · rename_i hq
      simp [hq]
    · rw [hin q ha]
      omega
  · rw [hload, if_neg (Nat.ne_of_lt hq)]
  · rw [hload, if_pos (by simp; omega)]
    exact rd_eq _ hp

theorem valid_new (h : Buffers mem a (c + 1) len) (ha : a ≤ c) : Valid mem ⟨c, 0⟩ len := fun x hx =>
  (h.inside _ ha).2 ⟨by simp, by simpa using hx⟩

/-- A loop each round of which appends a buffer and stores its address. -/
theorem allocate_spec {body : Nat → Vector Ptr d × Mem → Option (Vector Ptr d × Mem)} {val : Nat → Nat → UInt8}
    (h : Buffers mem a c len)
    (hbody : ∀ i v t, i < d → Buffers t a (c + i) len → Allocated mem t i len val →
      Returns (body i (v, t)) fun r => r.1 = upd v i ⟨c + i, 0⟩ ∧ Buffers r.2 a (c + i + 1) len ∧
        Allocated t r.2 1 len fun _ => val i) :
    Returns (forUp 0 d (Vector.replicate d default, mem) body) fun r =>
      r.1 = ownBuffers c d ∧ Buffers r.2 a (c + d) len ∧ Allocated mem r.2 d len val := by
  refine (Returns.forUp (fun i (r : Vector Ptr d × Mem) => (∀ x, x < i → cell r.1 x = ⟨c + x, 0⟩) ∧
    Buffers r.2 a (c + i) len ∧ Allocated mem r.2 i len val) (Nat.zero_le d)
    ⟨fun x hx => by omega, h, Allocated.refl mem len val⟩ fun i r _ hi ⟨hv, hb, ha⟩ => ?_).mono
      fun r ⟨hv, hb, ha⟩ => ⟨buffer_ext fun x hx => by rw [hv x hx, cell_ownBuffers hx], hb, ha⟩
  refine (hbody i r.1 r.2 hi hb ha).mono fun r' ⟨hv', hb', ha'⟩ => ⟨fun x hx => ?_, hb', ha.append ha' fun x hx p _ => ?_⟩
  · rw [hv']
    by_cases hxi : x = i
    · rw [hxi, cell_upd_self _ hi]
    · rw [cell_upd_ne _ (Ne.symm hxi), hv x (by omega)]
  · rw [show x = 0 by omega, Nat.add_zero]

theorem allocStrips_spec (raw : Nat → Vector UInt8 len) (h : Buffers mem a c len) :
    Returns (allocStrips raw d mem) fun r => r.1 = ownBuffers c d ∧ Buffers r.2 a (c + d) len ∧
      Allocated mem r.2 d len fun i => cell (raw (c + i)) := by
  refine allocate_spec h fun i v t hi ht _ => ?_
  obtain ⟨hp, hb, ha⟩ := alloc_spec raw ht
  simp only [wr_eq v hi, Option.bind_eq_bind, Option.bind_some]
  exact returns_some ⟨congrArg (upd v i) hp, hb, ha⟩

/-- Writing over the buffer that was appended. -/
theorem allocated_overwritten {mem'' : Mem} {val : Nat → Nat → UInt8} {T : Ptr → UInt8}
    (h : Allocated mem mem' 1 len val)
    (hw : Written mem' mem'' (fun q => ∃ j, j < len ∧ q = Ptr.add ⟨mem.size, 0⟩ j) T) :
    Allocated mem mem'' 1 len fun _ p => T ⟨mem.size, p⟩ := by
  refine ⟨hw.size.trans h.size, fun q hq => ?_, fun x hx p hp => ?_⟩
  · rw [hw.frame, h.old q hq]
    rintro ⟨j, -, rfl⟩
    exact Nat.lt_irrefl _ hq
  · obtain rfl : x = 0 := by omega
    exact hw.set _ ⟨p, hp, by simp [Ptr.add]⟩

/-! ## Filling, copying and comparing -/

theorem fill_spec {p : Ptr} (f : Nat → UInt8) (hp : Valid mem p len) :
    Returns (fill mem p f len) fun mem' =>
      Written mem mem' (fun q => ∃ j, j < len ∧ q = p.add j) fun q => f (q.off - p.off) := by
  unfold fill
  refine (forUp_written (W := fun j q => q = p.add j) (T := fun q => f (q.off - p.off)) (Nat.zero_le len)
    fun j t _ hj ht => ?_).mono fun t ht => ht.congr fun q =>
      ⟨fun ⟨j, _, hj, e⟩ => ⟨j, hj, e⟩, fun ⟨j, hj, e⟩ => ⟨j, Nat.zero_le _, hj, e⟩⟩
  refine (store_spec (ht.isSome (hp j hj)) (f j)).mono fun t' ⟨hs, hl⟩ => ⟨hs, fun q hq => ?_, fun q hq => ?_⟩
  · rw [hl, if_pos hq, hq, Ptr.add_off, Nat.add_sub_cancel_left]
  · rw [hl, if_neg hq]

theorem fillVectors_spec (f : Nat → Nat → UInt8) (h : Buffers mem a c len) :
    Returns (fillVectors f len d mem) fun r => r.1 = ownBuffers c d ∧ Buffers r.2 a (c + d) len := by
  suffices Returns (fillVectors f len d mem) fun r =>
      r.1 = ownBuffers c d ∧ Buffers r.2 a (c + d) len ∧ Allocated mem r.2 d len f from
    this.mono fun r ⟨hv, hb, _⟩ => ⟨hv, hb⟩
  refine allocate_spec h fun i v t hi ht _ => ?_
  obtain ⟨hp, hb, hnew⟩ := alloc_spec (zeros len) ht
  simp only [hp, wr_eq v hi, Option.bind_eq_bind]
  have hdst := valid_new hb ht.le
  refine (fill_spec (f i) hdst).bind fun t' hw =>
    returns_some ⟨rfl, hb.written hw fun _ ⟨j, hj, e⟩ => e ▸ hdst j hj, ?_⟩
  rw [← ht.size] at hw
  exact (allocated_overwritten hnew hw).congrVal fun _ _ p _ => by simp

theorem setStrips_spec (x : Nat → Nat) (h : Buffers mem a c len) (ha : a ≤ b) (hb : b + d ≤ c) :
    Returns (setStrips (ownBuffers b d) x len mem) fun mem' =>
      Rewritten mem mem' (ownBuffers b d) (fun _ => True) len fun i _ => UInt8.ofNat (x i) := by
  have hval : ∀ i, i < d → ∀ j, UInt8.ofNat (x (((cell (ownBuffers b d) i).add j).buf - b)) = UInt8.ofNat (x i) :=
    fun i hi j => by rw [cell_ownBuffers hi, Ptr.add_buf, Nat.add_sub_cancel_left]
  unfold setStrips
  refine (forUp_written (W := fun i q => ∃ j, j < len ∧ q = (cell (ownBuffers b d) i).add j)
    (T := fun q => UInt8.ofNat (x (q.buf - b))) (Nat.zero_le d) fun i t _ hi ht => ?_).mono fun t ht =>
      ⟨ht.size, fun i hi _ j hj => ?_, fun q hq => ht.frame q ?_⟩
  · rw [rd_eq _ hi]
    refine (fill_spec _ fun j hj => ht.isSome ((h.exact ha hb).valid i hi j hj)).mono fun t' hw => hw.congrVal ?_
    rintro _ ⟨j, -, rfl⟩
    exact (hval i hi j).symm
  · rw [ht.set _ ⟨i, Nat.zero_le i, hi, j, hj, rfl⟩, hval i hi]
  · rintro ⟨i, -, hi, j, hj, rfl⟩
    exact hq ⟨i, hi, trivial, j, Nat.zero_le j, hj, rfl⟩

theorem strip_eq {i : Nat} (hi : i < k + n) :
    strip (ownBuffers b k) (ownBuffers (b + k) n) i = some (cell (ownBuffers b (k + n)) i) := by
  unfold strip
  rw [cell_ownBuffers hi]
  split
  · rename_i hk
    rw [rd_eq _ hk, cell_ownBuffers hk]
  · rename_i hk
    rw [rd_eq _ (show i - k < n by omega), cell_ownBuffers (by omega)]
    congr 2
    omega

theorem copyStrips_spec (raw : Nat → Vector UInt8 len) (h : Buffers mem a c len) (ha : a ≤ b) (hb : b + (k + n) ≤ c) :
    Returns (copyStrips raw (ownBuffers b k) (ownBuffers (b + k) n) mem) fun r =>
      r.1 = ownBuffers c (k + n) ∧ Buffers r.2 a (c + (k + n)) len ∧
        Allocated mem r.2 (k + n) len (stripByte mem (ownBuffers b (k + n))) := by
  refine allocate_spec h fun i v t hi ht hold => ?_
  obtain ⟨hp, hb', hnew⟩ := alloc_spec raw ht
  simp only [strip_eq hi, wr_eq v hi, hp, Option.bind_eq_bind, Option.bind_some]
  generalize (alloc raw t).1 = t' at *
  have hdst := valid_new hb' ht.le
  refine (memcpy_spec ((hb'.exact ha (by omega)).valid i hi) hdst ?_).bind fun t'' hw =>
    returns_some ⟨rfl, hb'.written hw fun q ⟨x, hx, e⟩ => e ▸ hdst x hx, ?_⟩
  · rw [cell_ownBuffers hi]
    dsimp only
    omega
  · rw [← ht.size] at hw
    refine (allocated_overwritten hnew hw).congrVal fun _ _ p _ => ?_
    -- the original is as it was
    have hbuf : (cell (ownBuffers b (k + n)) i).buf < mem.size := by
      rw [h.size, cell_ownBuffers hi]
      dsimp only
      omega
    rw [stripByte, byteAt, byteAt, hnew.old, hold.old]
    · simp
    · exact hbuf
    · exact Nat.lt_of_lt_of_le hbuf (by rw [hold.size]; omega)

/-- The listed strips are overwritten, and nothing else. -/
theorem eraseStrips_spec {err_list : Vector UInt8 err_num} (hl : ∀ i, i < err_num → entry err_list i < d)
    (h : Buffers mem a c len) (ha : a ≤ b) (hb : b + d ≤ c) :
    Returns (eraseStrips (ownBuffers b d) err_list len mem) fun mem' =>
      Rewritten mem mem' (ownBuffers b d) (fun r => r ∈ erased err_list) len fun _ _ => 255 := by
  unfold eraseStrips
  refine (forUp_written (W := fun i q => ∃ j, j < len ∧ q = (cell (ownBuffers b d) (entry err_list i)).add j)
    (T := fun _ => 255) (Nat.zero_le err_num) fun i t _ hi ht => ?_).mono fun t ht =>
      ⟨ht.size, fun r _ hr j hj => ?_, fun q hq => ht.frame q ?_⟩
  · have hptr : (ownBuffers b d)[(cell err_list i).toNat]? = some (cell _ (entry err_list i)) := rd_eq _ (hl i hi)
    rw [rd_eq _ hi, Option.bind_eq_bind, Option.bind_some, hptr]
    exact fill_spec _ fun j hj => ht.isSome ((h.exact ha hb).valid _ (hl i hi) j hj)
  · obtain ⟨i, hi, rfl⟩ := mem_erased.1 hr
    exact ht.set _ ⟨i, Nat.zero_le i, hi, j, hj, rfl⟩
  · rintro ⟨i, -, hi, j, hj, rfl⟩
    exact hq ⟨_, hl i hi, mem_erased.2 ⟨i, hi, rfl⟩, j, Nat.zero_le j, hj, rfl⟩

theorem memcmp_spec {p q : Ptr} (hp : Valid mem p len) (hq : Valid mem q len) :
    Returns (memcmp mem p q len) fun differ =>
      differ = false ↔ ∀ x, x < len → byteAt mem (p.add x) = byteAt mem (q.add x) := by
  refine Returns.forUp (fun i differ => differ = false ↔ ∀ x, x < i → byteAt mem (p.add x) = byteAt mem (q.add x))
    (Nat.zero_le len) (by simp) fun x differ _ hx hd => ?_
  rw [load_eq (hp x hx), load_eq (hq x hx)]
  refine returns_some ?_
  rw [Bool.or_eq_false_iff, hd, bne_eq_false_iff_eq, Nat.forall_lt_succ_right]

/-! ## Checks -/

theorem allSame_spec {differs : Nat → Option Bool} {P : Nat → Prop} {l : List Nat}
    (h : ∀ i ∈ l, Returns (differs i) fun d => d = false ↔ P i) :
    Returns (allSame differs l) fun same => same = true ↔ ∀ i ∈ l, P i := by
  induction l with
  | nil => exact returns_some (by simp)
  | cons i l ih =>
    refine (h i List.mem_cons_self).bind fun d hd => ?_
    cases d with
    | true => exact returns_some ⟨fun e => (by cases e), fun hall => by simp [hd.2 (hall i List.mem_cons_self)]⟩
    | false =>
      refine (ih fun j hj => h j (List.mem_cons_of_mem i hj)).mono fun same hs => ?_
      rw [hs, List.forall_mem_cons, and_iff_right (hd.1 rfl)]

/-- A check that cannot be made. -/
theorem allSame_none {differs : Nat → Option Bool} {l : List Nat} {j : Nat}
    (h : ∀ i ∈ l, differs i = some false ∨ differs i = none) (hj : j ∈ l) (hnone : differs j = none) :
    allSame differs l = none := by
  induction l with
  | nil => exact absurd hj List.not_mem_nil
  | cons i l ih =>
    rw [allSame]
    rcases h i List.mem_cons_self with hi | hi
    · rw [hi, Option.bind_eq_bind, Option.bind_some, if_neg (by simp)]
      refine ih (fun x hx => h x (List.mem_cons_of_mem i hx)) ?_
      rcases List.mem_cons.1 hj with rfl | hj
      · rw [hnone] at hi
        cases hi
      · exact hj
    · rw [hi]
      rfl

end

end ErasureCode.Tests
