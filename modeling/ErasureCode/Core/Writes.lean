import Mathlib.Data.List.Induction
import ErasureCode.Core.Run
import ErasureCode.Core.Strips

/-!
# Writes in any order

A `Region` is a stretch of bytes at a place in one of several unbounded arrays.
After any sequence of region writes, a cell holds `b` when some region covers it
and every region that covers it has `b` there (`writes_read`); the order does not
matter. `run_written` is the same for the heap of `Core.Memory`: rounds that
each set their cells to the values of `T`, taken in any order, set them all.

`stretches start lens` cuts a range into stretches of the given lengths; rounds
that each write their stretch of the strips, in any order, write the whole range
(`stretches_rewritten`).
-/
namespace ErasureCode.Core

section
variable {δ β : Type}

/-- `bytes` from position `off` of the array `dev` on. -/
structure Region (δ β : Type) where
  dev : δ
  off : Nat
  bytes : List β

/-- The arrays after the region is written. -/
def Region.write [DecidableEq δ] (d : δ → Nat → β) (w : Region δ β) : δ → Nat → β := fun dev x =>
  if w.dev = dev ∧ w.off ≤ x then (w.bytes[x - w.off]?).getD (d dev x) else d dev x

/-- The region puts `b` at position `x` of `dev`. -/
def Region.Puts (w : Region δ β) (dev : δ) (x : Nat) (b : β) : Prop :=
  w.dev = dev ∧ w.off ≤ x ∧ w.bytes[x - w.off]? = some b

variable [DecidableEq δ] {d : δ → Nat → β} {dev : δ} {x : Nat} {b : β}

theorem write_puts {w : Region δ β} (h : w.Puts dev x b) : w.write d dev x = b := by
  obtain ⟨hdev, hoff, hb⟩ := h
  rw [Region.write, if_pos ⟨hdev, hoff⟩, hb, Option.getD_some]

theorem write_frame {w : Region δ β} (h : ∀ b, ¬ w.Puts dev x b) : w.write d dev x = d dev x := by
  unfold Region.write
  split
  · rename_i hc
    cases hb : w.bytes[x - w.off]? with
    | none => rfl
    | some b => exact absurd ⟨hc.1, hc.2, hb⟩ (h b)
  · rfl

/-- A cell that is not written. -/
theorem writes_frame {log : List (Region δ β)} (h : ∀ w ∈ log, ∀ b, ¬ w.Puts dev x b) :
    (log.foldl Region.write d) dev x = d dev x := by
  induction log generalizing d with
  | nil => rfl
  | cons w log ih =>
    rw [List.foldl_cons, ih fun u hu => h u (List.mem_cons_of_mem w hu), write_frame (h w List.mem_cons_self)]

/-- A cell that is written, and only with `b`. -/
theorem writes_read {log : List (Region δ β)} (hput : ∃ w ∈ log, ∃ b, w.Puts dev x b)
    (hval : ∀ w ∈ log, ∀ b', w.Puts dev x b' → b' = b) : (log.foldl Region.write d) dev x = b := by
  induction log using List.reverseRecOn with
  | nil =>
    obtain ⟨w, hw, -⟩ := hput
    exact absurd hw List.not_mem_nil
  | append_singleton log w ih =>
    rw [List.foldl_append, List.foldl_cons, List.foldl_nil]
    by_cases hlast : ∃ b', w.Puts dev x b'
    · obtain ⟨b', hb'⟩ := hlast
      rw [write_puts hb', hval w (by simp) b' hb']
    · rw [write_frame fun b' h => hlast ⟨b', h⟩]
      obtain ⟨w', hw', b', hb'⟩ := hput
      refine ih ⟨w', ?_, b', hb'⟩ fun u hu => hval u (List.mem_append_left _ hu)
      rcases List.mem_append.1 hw' with h | h
      · exact h
      · rw [List.mem_singleton.1 h] at hb'
        exact absurd ⟨b', hb'⟩ hlast

end

/-- Rounds that each set their cells. -/
theorem run_written {ι : Type} {body : ι → Mem → Option Mem} {W : ι → Ptr → Prop} {T : Ptr → UInt8} {l : List ι}
    {mem : Mem} (hstep : ∀ i ∈ l, ∀ t D, Written mem t D T → Returns (body i t) fun t' => Written t t' (W i) T) :
    Returns (run body l mem) fun t => Written mem t (fun q => ∃ i ∈ l, W i q) T := by
  refine Returns.run_prefix (I := fun l t => Written mem t (fun q => ∃ i ∈ l, W i q) T)
    ((Written.refl mem T).congr fun q => by simp) fun l₁ i l₂ t hl ht => ?_
  refine (hstep i (by rw [hl]; simp) t _ ht).mono fun t' ht' => (ht.trans ht').congr fun q => ?_
  simp [or_and_right, exists_or]

/-! ## Stretches -/

/-- Stretches of the given lengths, one after another: where each starts, and its
length. -/
def stretches : Nat → List Nat → List (Nat × Nat)
  | _, [] => []
  | start, len :: lens => (start, len) :: stretches (start + len) lens

/-- They cover the range. -/
theorem mem_stretches_iff {start : Nat} {lens : List Nat} {p : Nat} :
    (∃ s ∈ stretches start lens, s.1 ≤ p ∧ p < s.1 + s.2) ↔ start ≤ p ∧ p < start + lens.sum := by
  induction lens generalizing start with
  | nil =>
    simp only [stretches, List.not_mem_nil, false_and, exists_false, List.sum_nil, false_iff]
    omega
  | cons len lens ih =>
    rw [stretches, List.exists_mem_cons_iff, ih, List.sum_cons]
    dsimp only
    omega

/-- Each is inside the range, and has one of the lengths. -/
theorem stretches_inside {start : Nat} {lens : List Nat} {s : Nat × Nat} (h : s ∈ stretches start lens) :
    s.1 + s.2 ≤ start + lens.sum ∧ s.2 ∈ lens := by
  induction lens generalizing start with
  | nil => exact absurd h List.not_mem_nil
  | cons len lens ih =>
    rw [List.sum_cons]
    rcases List.mem_cons.1 h with rfl | h
    · exact ⟨by dsimp only; omega, List.mem_cons_self⟩
    · obtain ⟨hle, hmem⟩ := ih h
      exact ⟨by omega, List.mem_cons_of_mem len hmem⟩

/-- Rounds that each write their stretch of the strips. -/
theorem stretches_rewritten {c L : Nat} {mem : Mem} {v : Vector Ptr c} {S : Nat → Prop} (val : Nat → Nat → UInt8)
    {body : Nat × Nat → Mem → Option Mem} {lens : List Nat} {order : List (Nat × Nat)}
    (horder : order.Perm (stretches 0 lens)) (hv : Strips mem v L) (hL : lens.sum = L)
    (hstep : ∀ s, s.1 + s.2 ≤ L → s.2 ∈ lens → ∀ t D T,
      (∀ r, r < c → ∀ p, p < L → T ((cell v r).add p) = val r p) → Written mem t D T →
      Returns (body s t) fun t' => Written t t' (StripCells v S s.1 (s.1 + s.2)) T) :
    Returns (run body order mem) fun t => Rewritten mem t v S L val := by
  obtain ⟨T, hT⟩ := hv.exists_values val
  refine (run_written (W := fun s => StripCells v S s.1 (s.1 + s.2)) (T := T) fun s hs t D ht => ?_).mono
    fun t ht => ?_
  · obtain ⟨hle, hmem⟩ := stretches_inside (horder.mem_iff.1 hs)
    exact hstep s (by omega) hmem t D T hT ht
  · have hcells : ∀ q, (∃ s ∈ order, StripCells v S s.1 (s.1 + s.2) q) ↔ StripCells v S 0 L q := fun q => by
      constructor
      · rintro ⟨s, hs, r, hr, hS, p, h1, h2, rfl⟩
        have hp := mem_stretches_iff.1 ⟨s, horder.mem_iff.1 hs, h1, h2⟩
        exact ⟨r, hr, hS, p, Nat.zero_le p, by omega, rfl⟩
      · rintro ⟨r, hr, hS, p, -, hp, rfl⟩
        obtain ⟨s, hs, h1, h2⟩ := mem_stretches_iff.2 (show 0 ≤ p ∧ p < 0 + lens.sum by omega)
        exact ⟨s, horder.mem_iff.2 hs, r, hr, hS, p, h1, h2, rfl⟩
    refine ⟨ht.size, fun r hr hS p hp => ?_, fun q hq => ht.frame q fun h => hq ((hcells q).1 h)⟩
    rw [ht.set _ ((hcells _).2 ⟨r, hr, hS, p, Nat.zero_le p, hp, rfl⟩), hT r hr p hp]

end ErasureCode.Core
