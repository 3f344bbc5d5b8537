import ErasureCode.Core.Strips

/-!
# Copies and fresh buffers

`memcpy` is the loop over its bytes. `Allocated mem mem' c L val` says that
`mem'` is `mem` with `c` more buffers, in which byte `p < L` of the `x`th is
`val x p`. Allocations compose (`Allocated.append`), what could be read before
reads the same (`Allocated.load_old`), and consecutive fresh buffers are strips
(`Allocated.strips`).
-/
namespace ErasureCode.Core

/-- `len` bytes from `src` to `dst`, which do not overlap. -/
def memcpy (mem : Mem) (dst src : Ptr) (len : Nat) : Option Mem :=
  forUp 0 len mem fun p mem => do store mem (dst.add p) (← load mem (src.add p))

theorem memcpy_spec {mem : Mem} {dst src : Ptr} {len : Nat} (hsrc : Valid mem src len) (hdst : Valid mem dst len)
    (hne : src.buf ≠ dst.buf) :
    Returns (memcpy mem dst src len) fun mem' =>
      Written mem mem' (fun q => ∃ p, p < len ∧ q = dst.add p) fun q => byteAt mem (src.add (q.off - dst.off)) := by
  unfold memcpy
  refine (forUp_written (W := fun p q => q = dst.add p) (T := fun q => byteAt mem (src.add (q.off - dst.off)))
    (Nat.zero_le len) fun p t _ hp ht => ?_).mono fun t ht => ht.congr fun q =>
      ⟨fun ⟨p, _, hp, e⟩ => ⟨p, hp, e⟩, fun ⟨p, hp, e⟩ => ⟨p, Nat.zero_le _, hp, e⟩⟩
  -- the source is as it was
  have hsame : load t (src.add p) = some (byteAt mem (src.add p)) := by
    rw [ht.frame, load_eq (hsrc p hp)]
    rintro ⟨p', _, _, e⟩
    exact hne (by simpa using congrArg Ptr.buf e)
  rw [hsame, Option.bind_eq_bind, Option.bind_some]
  refine (store_spec (ht.isSome (hdst p hp)) _).mono fun t' ⟨hs, hl⟩ =>
    ⟨hs, fun q hq => ?_, fun q hq => by rw [hl, if_neg hq]⟩
  rw [hl, if_pos hq, hq, Ptr.add_off, Nat.add_sub_cancel_left]

/-- A copy that returns has had room for its bytes. -/
theorem memcpy_accessed {mem mem' : Mem} {dst src : Ptr} {len : Nat} (h : memcpy mem dst src len = some mem') :
    Accessed mem mem' fun q => ∃ p, 0 ≤ p ∧ p < len ∧ q = dst.add p := by
  refine forUp_accessed (Nat.zero_le len) (fun p t t' _ _ hb => ?_) h
  obtain ⟨x, -, hstore⟩ := Option.bind_eq_some_iff.1 hb
  exact store_accessed hstore

/-- `c` buffers more, with `val` in their first `L` bytes. -/
structure Allocated (mem mem' : Mem) (c L : Nat) (val : Nat → Nat → UInt8) : Prop where
  size : mem'.size = mem.size + c
  old : ∀ q, q.buf < mem.size → load mem' q = load mem q
  new : ∀ x, x < c → ∀ p, p < L → load mem' ⟨mem.size + x, p⟩ = some (val x p)

theorem load_buf_lt {mem : Mem} {q : Ptr} (h : (load mem q).isSome) : q.buf < mem.size := by
  obtain ⟨b, hb, -⟩ := load_isSome_iff.1 h
  exact (Array.getElem?_eq_some_iff.1 hb).1

theorem cell_ownBuffers {b c i : Nat} (hi : i < c) : cell (ownBuffers b c) i = ⟨b + i, 0⟩ := by
  rw [cell_eq_getElem _ hi, ownBuffers, Vector.getElem_ofFn]

namespace Allocated

variable {mem mem' mem'' : Mem} {c c' L : Nat} {val val' : Nat → Nat → UInt8}

theorem refl (mem : Mem) (L : Nat) (val : Nat → Nat → UInt8) : Allocated mem mem 0 L val :=
  ⟨rfl, fun _ _ => rfl, fun x hx => by omega⟩

theorem load_old (h : Allocated mem mem' c L val) {q : Ptr} (hq : (load mem q).isSome) :
    load mem' q = load mem q :=
  h.old q (load_buf_lt hq)

theorem append (h : Allocated mem mem' c L val) (h' : Allocated mem' mem'' c' L val')
    (hval : ∀ x, x < c' → ∀ p, p < L → val (c + x) p = val' x p) : Allocated mem mem'' (c + c') L val := by
  refine ⟨by rw [h'.size, h.size, Nat.add_assoc], fun q hq => ?_, fun x hx p hp => ?_⟩
  · rw [h'.old q (by rw [h.size]; omega), h.old q hq]
  · by_cases hxc : x < c
    · rw [h'.old _ (show mem.size + x < mem'.size by rw [h.size]; omega), h.new x hxc p hp]
    · have hx' := h'.new (x - c) (by omega) p hp
      rw [← hval (x - c) (by omega) p hp, h.size, Nat.add_assoc, Nat.add_sub_cancel' (by omega)] at hx'
      exact hx'

theorem congrVal (h : Allocated mem mem' c L val) (hval : ∀ x, x < c → ∀ p, p < L → val x p = val' x p) :
    Allocated mem mem' c L val' :=
  ⟨h.size, h.old, fun x hx p hp => by rw [h.new x hx p hp, hval x hx p hp]⟩

theorem cast (h : Allocated mem mem' c L val) (hc : c = c') : Allocated mem mem' c' L val := hc ▸ h

/-- A buffer of zeros, and what is written to it. -/
theorem one {L : Nat} {mem' : Mem} {val : Nat → UInt8} {D : Ptr → Prop} {T : Ptr → UInt8}
    (h : Written (calloc mem L).1 mem' D T) (hD : ∀ q, D q → q.buf = mem.size)
    (hval : ∀ p, p < L → (D ⟨mem.size, p⟩ → T ⟨mem.size, p⟩ = val p) ∧ (¬ D ⟨mem.size, p⟩ → val p = 0)) :
    Allocated mem mem' 1 L fun _ => val := by
  refine ⟨by rw [h.size]; simp [calloc], fun q hq => ?_, fun x hx p hp => ?_⟩
  · rw [h.frame q fun hd => by have := hD q hd; omega, calloc_load_old hq]
  · obtain rfl : x = 0 := by omega
    rw [Nat.add_zero]
    by_cases hd : D ⟨mem.size, p⟩
    · rw [h.set _ hd, (hval p hp).1 hd]
    · rw [h.frame _ hd, (hval p hp).2 hd]
      have := calloc_load_new mem hp
      simpa [calloc, Ptr.add] using this

/-- Consecutive fresh buffers are strips. -/
theorem strips (h : Allocated mem mem' c L val) {x : Nat} (hx : x + c' ≤ c) :
    Strips mem' (ownBuffers (mem.size + x) c') L := by
  refine ⟨fun r hr p hp => ?_, fun r hr r' hr' hne p _ p' _ e => ?_⟩
  · rw [cell_ownBuffers hr]
    have := h.new (x + r) (by omega) p hp
    rw [← Nat.add_assoc] at this
    simp [Ptr.add, this]
  · rw [cell_ownBuffers hr, cell_ownBuffers hr'] at e
    have := congrArg Ptr.buf e
    simp only [Ptr.add_buf] at this
    omega

theorem stripByte (h : Allocated mem mem' c L val) {x r p : Nat} (hx : x + c' ≤ c) (hr : r < c') (hp : p < L) :
    stripByte mem' (ownBuffers (mem.size + x) c') r p = val (x + r) p := by
  have := h.new (x + r) (by omega) p hp
  rw [← Nat.add_assoc] at this
  rw [Core.stripByte, byteAt, cell_ownBuffers hr]
  simp [Ptr.add, this]

end Allocated

end ErasureCode.Core
