import ErasureCode.Core.Loop

/-!
# A heap of byte buffers

`Mem` lists the allocated buffers; a pointer is a buffer and an offset in it.
`load` and `store` outside a buffer are faults. `byteAt` is the total reading
used in statements.

Two memories with the same buffers that agree under `load` are equal
(`mem_ext`); `store_spec` says what one store does. `Written mem mem' D T` says
that `mem'` is `mem` with the bytes at `D` set to `T`; a loop whose rounds each
write their cells writes the cells of all rounds (`forUp_written`). `Accessed`
goes the other way: a loop that has returned was given the cells its rounds
access (`forUp_accessed`).
-/
namespace ErasureCode.Core

/-- A pointer into buffer `buf`. -/
@[ext] structure Ptr where
  buf : Nat
  off : Nat
  deriving DecidableEq, Repr, Inhabited

/-- Pointer arithmetic, `p + n`. -/
def Ptr.add (p : Ptr) (n : Nat) : Ptr := ⟨p.buf, p.off + n⟩

@[simp] theorem Ptr.add_buf (p : Ptr) (n : Nat) : (p.add n).buf = p.buf := rfl
@[simp] theorem Ptr.add_off (p : Ptr) (n : Nat) : (p.add n).off = p.off + n := rfl

@[simp] theorem Ptr.add_zero (p : Ptr) : p.add 0 = p := rfl

@[simp] theorem Ptr.add_add (p : Ptr) (a b : Nat) : (p.add a).add b = p.add (a + b) := by
  simp [Ptr.add, Nat.add_assoc]

theorem Ptr.add_inj {p : Ptr} {a b : Nat} : p.add a = p.add b ↔ a = b := by
  simp [Ptr.add]

abbrev Mem := Array (Array UInt8)

/-- `*p`. -/
def load (mem : Mem) (p : Ptr) : Option UInt8 := do
  let b ← mem[p.buf]?
  b[p.off]?

/-- `*p = x`. -/
def store (mem : Mem) (p : Ptr) (x : UInt8) : Option Mem := do
  let b ← mem[p.buf]?
  if p.off < b.size then return mem.setIfInBounds p.buf (b.setIfInBounds p.off x) else none

/-- A fresh buffer of `size` zero bytes, and the pointer to it. -/
def calloc (mem : Mem) (size : Nat) : Mem × Ptr :=
  (mem.push (Array.replicate size 0), ⟨mem.size, 0⟩)

def byteAt (mem : Mem) (p : Ptr) : UInt8 := (load mem p).getD 0

/-- `len` bytes from `p` on. -/
def bytesAt (mem : Mem) (p : Ptr) (len : Nat) : List UInt8 := (List.range len).map fun x => byteAt mem (p.add x)

/-- `L` bytes from `p` on can be accessed. -/
def Valid (mem : Mem) (p : Ptr) (L : Nat) : Prop := ∀ i, i < L → (load mem (p.add i)).isSome

instance (mem : Mem) (p : Ptr) (L : Nat) : Decidable (Valid mem p L) :=
  inferInstanceAs (Decidable (∀ i, i < L → (load mem (p.add i)).isSome))

theorem load_eq {mem : Mem} {p : Ptr} (h : (load mem p).isSome) : load mem p = some (byteAt mem p) := by
  obtain ⟨x, hx⟩ := Option.isSome_iff_exists.1 h
  simp [byteAt, hx]

theorem load_isSome_iff {mem : Mem} {p : Ptr} :
    (load mem p).isSome ↔ ∃ b, mem[p.buf]? = some b ∧ p.off < b.size := by
  unfold load
  cases h : mem[p.buf]? with
  | none => simp
  | some b => simp

theorem load_eq_none_iff {mem : Mem} {p : Ptr} : load mem p = none ↔ (mem[p.buf]?.getD #[]).size ≤ p.off := by
  unfold load
  cases h : mem[p.buf]? with
  | none => simp
  | some b => simp

/-- A store inside a buffer changes that byte and nothing else. -/
theorem store_spec {mem : Mem} {p : Ptr} (h : (load mem p).isSome) (x : UInt8) :
    Returns (store mem p x) fun mem' => mem'.size = mem.size ∧
      ∀ q, load mem' q = if q = p then some x else load mem q := by
  obtain ⟨b, hb, hlt⟩ := load_isSome_iff.1 h
  obtain ⟨hbuf, hbe⟩ := Array.getElem?_eq_some_iff.1 hb
  unfold store
  simp only [hb, Option.bind_eq_bind, Option.bind_some, if_pos hlt]
  refine returns_some ⟨by simp, fun q => ?_⟩
  unfold load
  by_cases hq : q.buf = p.buf
  · rw [hq, hb]
    simp only [Array.getElem?_setIfInBounds_self_of_lt hbuf, Option.bind_eq_bind, Option.bind_some]
    by_cases ho : q.off = p.off
    · rw [if_pos (Ptr.ext hq ho), ho, Array.getElem?_setIfInBounds_self_of_lt hlt]
    · rw [if_neg fun e => ho (congrArg Ptr.off e), Array.getElem?_setIfInBounds_ne (Ne.symm ho)]
  · rw [if_neg fun e => hq (congrArg Ptr.buf e), Array.getElem?_setIfInBounds_ne (Ne.symm hq)]

theorem mem_ext {mem mem' : Mem} (hs : mem.size = mem'.size) (h : ∀ p, load mem p = load mem' p) :
    mem = mem' := by
  refine Array.ext hs fun i hi hi' => Array.ext ?_ fun j hj hj' => ?_
  · have hsz : ∀ j, (load mem ⟨i, j⟩).isSome ↔ j < mem[i].size := fun j => by
      rw [load_isSome_iff]; simp [hi]
    have hsz' : ∀ j, (load mem' ⟨i, j⟩).isSome ↔ j < mem'[i].size := fun j => by
      rw [load_isSome_iff]; simp [hi']
    have key : ∀ j, j < mem[i].size ↔ j < mem'[i].size := fun j => by
      rw [← hsz, h, hsz']
    exact Nat.le_antisymm (Nat.le_of_not_lt fun hlt => Nat.lt_irrefl _ ((key _).1 hlt))
      (Nat.le_of_not_lt fun hlt => Nat.lt_irrefl _ ((key _).2 hlt))
  · have := h ⟨i, j⟩
    simpa [load, hi, hi', hj, hj'] using this

/-! ## Writing a set of cells -/

/-- `mem'` is `mem` with the cells `D` set to the values `T`. -/
structure Written (mem mem' : Mem) (D : Ptr → Prop) (T : Ptr → UInt8) : Prop where
  size : mem'.size = mem.size
  set : ∀ q, D q → load mem' q = some (T q)
  frame : ∀ q, ¬ D q → load mem' q = load mem q

namespace Written
variable {mem mem' mem'' : Mem} {D D' : Ptr → Prop} {T : Ptr → UInt8}

theorem refl (mem : Mem) (T : Ptr → UInt8) : Written mem mem (fun _ => False) T :=
  ⟨rfl, fun _ h => h.elim, fun _ _ => rfl⟩

theorem trans (h : Written mem mem' D T) (h' : Written mem' mem'' D' T) :
    Written mem mem'' (fun q => D q ∨ D' q) T := by
  refine ⟨h'.size.trans h.size, fun q hq => ?_, fun q hq => ?_⟩
  · by_cases hd : D' q
    · exact h'.set q hd
    · rw [h'.frame q hd]
      exact h.set q (hq.resolve_right hd)
  · rw [h'.frame q fun hd => hq (.inr hd), h.frame q fun hd => hq (.inl hd)]

theorem congr (h : Written mem mem' D T) (hD : ∀ q, D q ↔ D' q) : Written mem mem' D' T :=
  ⟨h.size, fun q hq => h.set q ((hD q).2 hq), fun q hq => h.frame q fun hd => hq ((hD q).1 hd)⟩

theorem congrVal {T' : Ptr → UInt8} (h : Written mem mem' D T) (hT : ∀ q, D q → T q = T' q) :
    Written mem mem' D T' :=
  ⟨h.size, fun q hq => by rw [h.set q hq, hT q hq], h.frame⟩

/-- What could be accessed still can. -/
theorem isSome (h : Written mem mem' D T) {q : Ptr} (hq : (load mem q).isSome) :
    (load mem' q).isSome := by
  by_cases hd : D q
  · rw [h.set q hd]; rfl
  · rw [h.frame q hd]; exact hq

theorem byteAt_frame (h : Written mem mem' D T) {q : Ptr} (hq : ¬ D q) :
    byteAt mem' q = byteAt mem q := by
  rw [byteAt, h.frame q hq, byteAt]

/-- There is one way to set the cells. -/
theorem unique (h : Written mem mem' D T) (h' : Written mem mem'' D T) : mem' = mem'' := by
  refine mem_ext (h.size.trans h'.size.symm) fun q => ?_
  by_cases hq : D q
  · rw [h.set q hq, h'.set q hq]
  · rw [h.frame q hq, h'.frame q hq]

end Written

/-- Every byte changed, as its place says. -/
def mapBytes (mem : Mem) (f : Ptr → UInt8 → UInt8) : Mem := mem.mapIdx fun b buf => buf.mapIdx fun x => f ⟨b, x⟩

theorem load_mapBytes (mem : Mem) (f : Ptr → UInt8 → UInt8) (q : Ptr) :
    load (mapBytes mem f) q = (load mem q).map (f q) := by
  unfold load mapBytes
  rw [Array.getElem?_mapIdx]
  cases mem[q.buf]? with
  | none => rfl
  | some b => simp

/-- Cells that can be accessed can be set to any values. -/
theorem exists_written {mem : Mem} {D : Ptr → Prop} (hD : ∀ q, D q → (load mem q).isSome) (T : Ptr → UInt8) :
    ∃ mem', Written mem mem' D T := by
  classical
  refine ⟨mapBytes mem fun q y => if D q then T q else y, Array.size_mapIdx, fun q hq => ?_, fun q hq => ?_⟩
  · rw [load_mapBytes, load_eq (hD q hq), Option.map_some, if_pos hq]
  · rw [load_mapBytes]
    simp only [if_neg hq]
    exact Option.map_id'

theorem forUp_written {body : Nat → Mem → Option Mem} {W : Nat → Ptr → Prop} {T : Ptr → UInt8}
    {lo hi : Nat} {mem : Mem} (hle : lo ≤ hi)
    (hstep : ∀ i t, lo ≤ i → i < hi → Written mem t (fun q => ∃ j, lo ≤ j ∧ j < i ∧ W j q) T →
      Returns (body i t) fun t' => Written t t' (W i) T) :
    Returns (forUp lo hi mem body) fun t =>
      Written mem t (fun q => ∃ i, lo ≤ i ∧ i < hi ∧ W i q) T := by
  refine Returns.forUp (fun i t => Written mem t (fun q => ∃ j, lo ≤ j ∧ j < i ∧ W j q) T) hle
    ((Written.refl mem T).congr fun q => ⟨False.elim, fun ⟨j, h1, h2, _⟩ => by omega⟩) ?_
  intro i t h1 h2 ht
  refine (hstep i t h1 h2 ht).mono fun t' ht' => (ht.trans ht').congr fun q => ⟨?_, ?_⟩
  · rintro (⟨j, hj1, hj2, hj⟩ | hi)
    · exact ⟨j, hj1, by omega, hj⟩
    · exact ⟨i, h1, by omega, hi⟩
  · rintro ⟨j, hj1, hj2, hj⟩
    rcases Nat.lt_or_eq_of_le (Nat.le_of_lt_succ hj2) with h | rfl
    · exact .inl ⟨j, hj1, h, hj⟩
    · exact .inr hj

/-! ## What a call that returns has accessed -/

/-- The cells `W` could be accessed in `mem`, and `mem'` has the same buffers. -/
structure Accessed (mem mem' : Mem) (W : Ptr → Prop) : Prop where
  valid : ∀ q, W q → (load mem q).isSome
  same : ∀ q, (load mem' q).isSome ↔ (load mem q).isSome

theorem store_accessed {mem mem' : Mem} {p : Ptr} {x : UInt8} (h : store mem p x = some mem') :
    Accessed mem mem' fun q => q = p := by
  have hp : (load mem p).isSome := by
    obtain ⟨b, hb, h⟩ := Option.bind_eq_some_iff.1 h
    refine load_isSome_iff.2 ⟨b, hb, ?_⟩
    by_contra hlt
    rw [if_neg hlt] at h
    cases h
  refine ⟨fun q hq => hq ▸ hp, fun q => ?_⟩
  rw [((store_spec hp x).of_eq h).2 q]
  split
  · rename_i hq
    simp [hq, hp]
  · rfl

/-- A loop that returns has accessed the cells of all its rounds. -/
theorem forUp_accessed {body : Nat → Mem → Option Mem} {W : Nat → Ptr → Prop} {lo hi : Nat} {mem mem' : Mem}
    (hle : lo ≤ hi) (hbody : ∀ i t t', lo ≤ i → i < hi → body i t = some t' → Accessed t t' (W i))
    (h : forUp lo hi mem body = some mem') :
    Accessed mem mem' fun q => ∃ i, lo ≤ i ∧ i < hi ∧ W i q := by
  refine forUp_inv (fun i t => Accessed mem t fun q => ∃ j, lo ≤ j ∧ j < i ∧ W j q) hle
    ⟨fun q ⟨j, h1, h2, _⟩ => by omega, fun q => Iff.rfl⟩ (fun i t t' h1 h2 ht hb => ?_) h
  have hi := hbody i t t' h1 h2 hb
  refine ⟨fun q ⟨j, hj1, hj2, hj⟩ => ?_, fun q => (hi.same q).trans (ht.same q)⟩
  rcases Nat.lt_or_eq_of_le (Nat.le_of_lt_succ hj2) with hlt | rfl
  · exact ht.valid q ⟨j, hj1, hlt, hj⟩
  · exact (ht.same q).1 (hi.valid q hj)

/-- Two updates of different cells, neither of which depends on the other's
cell, commute. -/
theorem written_comm {f g : Mem → Option Mem} {mem : Mem} {q q' : Ptr} {x y : UInt8} (hne : q ≠ q')
    (hf : ∀ t, t = mem ∨ Written mem t (fun c => c = q') (fun _ => y) →
      Returns (f t) fun t' => Written t t' (fun c => c = q) fun _ => x)
    (hg : ∀ t, t = mem ∨ Written mem t (fun c => c = q) (fun _ => x) →
      Returns (g t) fun t' => Written t t' (fun c => c = q') fun _ => y) :
    (f mem >>= g) = (g mem >>= f) := by
  obtain ⟨t₁, hft, hw₁⟩ := hf mem (.inl rfl)
  obtain ⟨t₂, hgt, hw₂⟩ := hg mem (.inl rfl)
  obtain ⟨u₁, hgu, hv₁⟩ := hg t₁ (.inr hw₁)
  obtain ⟨u₂, hfu, hv₂⟩ := hf t₂ (.inr hw₂)
  rw [hft, hgt, Option.bind_eq_bind, Option.bind_some, Option.bind_some, hgu, hfu]
  refine congrArg some (mem_ext ?_ fun c => ?_)
  · rw [hv₁.size, hw₁.size, hv₂.size, hw₂.size]
  · by_cases h : c = q
    · subst h
      rw [hv₁.frame c hne, hw₁.set c rfl, hv₂.set c rfl]
    · by_cases h' : c = q'
      · subst h'
        rw [hv₁.set c rfl, hv₂.frame c h, hw₂.set c rfl]
      · rw [hv₁.frame c h', hw₁.frame c h, hv₂.frame c h, hw₂.frame c h']

/-! ## Allocation -/

theorem calloc_load_old {mem : Mem} {size : Nat} {q : Ptr} (h : q.buf < mem.size) :
    load (calloc mem size).1 q = load mem q := by
  simp [calloc, load, Array.getElem?_push, Nat.ne_of_lt h]

theorem calloc_load_new (mem : Mem) {size i : Nat} (h : i < size) :
    load (calloc mem size).1 ((calloc mem size).2.add i) = some 0 := by
  simp [calloc, load, Ptr.add, h]

end ErasureCode.Core
