import ErasureCode.IsaEC.Recovery
import ErasureCode.Scheduler.StripeFirst

/-!
# Data through the stripes and back

The pipeline of `test/stripe_scheduler.cpp:48-151`: the scheduler cuts the data
into stripes, `encode_ptr` is called on every stripe with the chunk size as
strip length, chunks are lost, and `cache_decode_ptr` is called on every
stripe, again with the chunk size. That method divides its argument by `k`; a
block of at least `k` bytes is still covered (`IsaEC.covered_le`).

The stripes are in buffers of their own, so each call rewrites its stripe and
no other (`stripes_written`). `stripe_pipeline`: all chunks end up as after the
encoding, and the data chunks, read stripe by stripe, are the data and zeros.
-/
namespace ErasureCode.Scheduler

open ErasureCode.Core Isal IsaEC

variable {k n : Nat}

/-- `in[i]` as the `k` data strips. -/
def front (v : Vector Ptr (k + n)) : Vector Ptr k := Vector.ofFn fun j => v[j.val]

/-- `&in[i][k]`. -/
def back (v : Vector Ptr (k + n)) : Vector Ptr n := Vector.ofFn fun l => v[k + l.val]

theorem front_append_back (v : Vector Ptr (k + n)) : front v ++ back v = v := by
  apply Vector.ext
  intro i hi
  rw [Vector.getElem_append]
  split
  · simp [front]
  · rename_i h
    simp [back, Nat.add_sub_cancel' (Nat.not_lt.1 h)]

/-- mirrors test/stripe_scheduler.cpp:64-68 -/
def encodeStripes (ec : IsaEC k n) (stripes : Array (Vector Ptr (k + n))) (num maxSize : Nat) (mem : Mem) :
    Option Mem :=
  forUp 0 num mem fun i mem => do
    let v ← stripes[i]?
    return (← ec.encodePtr (front v) (back v) maxSize mem).1

/-- mirrors test/stripe_scheduler.cpp:130-133 -/
def decodeStripes {err_num : Nat} (ec : IsaEC k n) (stripes : Array (Vector Ptr (k + n)))
    (err_list : Vector UInt8 err_num) (num maxSize : Nat) (mem : Mem) : Option Mem :=
  forUp 0 num mem fun i mem => do
    let v ← stripes[i]?
    return (← ec.cacheDecodePtr v err_list maxSize mem).1

/-! ## One call for each stripe -/

/-- The chunks of stripe `i`, the buffers starting at `base`. -/
def stripeAt (k n base i : Nat) : Vector Ptr (k + n) := ownBuffers (base + i * (k + n)) (k + n)

/-- Byte `p` of chunk `j` of stripe `i`. -/
def stripesByte (k n base : Nat) (mem : Mem) (i j p : Nat) : UInt8 := stripByte mem (stripeAt k n base i) j p

section
variable {mem : Mem} {base N L : Nat}

theorem stripeAt_add {i j p : Nat} (hj : j < k + n) :
    (cell (stripeAt k n base i) j).add p = ⟨base + (i * (k + n) + j), p⟩ := by
  rw [stripeAt, cell_ownBuffers hj, Nat.add_assoc]
  simp [Ptr.add]

/-- Stripes share no byte. -/
theorem stripeAt_inj {i i' j j' p p' : Nat} (hj : j < k + n) (hj' : j' < k + n)
    (e : (cell (stripeAt k n base i) j).add p = (cell (stripeAt k n base i') j').add p') : i = i' ∧ j = j' ∧ p = p' := by
  rw [stripeAt_add hj, stripeAt_add hj'] at e
  obtain ⟨hi, hj⟩ := pos_inj hj hj' (Nat.add_left_cancel (congrArg Ptr.buf e))
  exact ⟨hi, hj, congrArg Ptr.off e⟩

/-- Calls that each rewrite their stripe, from what it holds at the start. -/
theorem stripes_written {body : Nat → Mem → Option Mem} (S : Nat → Prop) (val : Nat → Nat → Nat → UInt8)
    (hs : ∀ i, i < N → Strips mem (stripeAt k n base i) L)
    (hstep : ∀ i t, i < N → Strips t (stripeAt k n base i) L →
      (∀ j, j < k + n → ∀ p, p < L → stripesByte k n base t i j p = stripesByte k n base mem i j p) →
      Returns (body i t) fun t' => Rewritten t t' (stripeAt k n base i) S L (val i)) :
    Returns (forUp 0 N mem body) fun t => (∀ i, i < N → Strips t (stripeAt k n base i) L) ∧
      ∀ i, i < N → ∀ j, j < k + n → ∀ p, p < L →
        (S j → stripesByte k n base t i j p = val i j p) ∧
          (¬ S j → stripesByte k n base t i j p = stripesByte k n base mem i j p) := by
  -- the value of a byte, from the place of its buffer
  let T : Ptr → UInt8 := fun q => val ((q.buf - base) / (k + n)) ((q.buf - base) % (k + n)) q.off
  have hT : ∀ i j p, j < k + n → T ((cell (stripeAt k n base i) j).add p) = val i j p := by
    intro i j p hj
    simp only [T, stripeAt_add hj, Nat.add_sub_cancel_left]
    rw [Nat.mul_comm i, Nat.mul_add_div (by omega), Nat.div_eq_of_lt hj, Nat.mul_add_mod, Nat.mod_eq_of_lt hj,
      Nat.add_zero]
  refine (forUp_written (W := fun i => StripCells (stripeAt k n base i) S 0 L) (T := T) (Nat.zero_le N)
    fun i t _ hi ht => ?_).mono fun t ht => ⟨fun i hi => (hs i hi).of_isSome fun _ => ht.isSome,
      fun i hi j hj p hp => ⟨fun hS => ?_, fun hS => ?_⟩⟩
  · refine (hstep i t hi ((hs i hi).of_isSome fun _ => ht.isSome) fun j hj p hp => ?_).mono fun t' h =>
      ⟨h.size, ?_, h.frame⟩
    · rw [stripesByte, stripByte, ht.byteAt_frame, stripesByte, stripByte]
      rintro ⟨i', _, hi', r, hr, _, p', _, _, e⟩
      exact absurd (stripeAt_inj hj hr e).1 (by omega)
    · rintro q ⟨r, hr, hS, p, _, hp, rfl⟩
      rw [h.set r hr hS p hp, hT i r p hr]
  · rw [stripesByte, stripByte, byteAt, ht.set _ ⟨i, Nat.zero_le _, hi, j, hj, hS, p, Nat.zero_le _, hp, rfl⟩,
      Option.getD_some, hT i j p hj]
  · rw [stripesByte, stripByte, ht.byteAt_frame, stripesByte, stripByte]
    rintro ⟨i', _, _, r, hr, hSr, p', _, _, e⟩
    exact hS ((stripeAt_inj hj hr e).2.1 ▸ hSr)

variable {ec : IsaEC k n} {stripes : Array (Vector Ptr (k + n))} {d : Nat → Nat → Fin k → GF256}

/-- Every stripe encoded: the stripes hold the words of the data chunks, which
are as before. -/
theorem encodeStripes_spec (hM : 0 < ec.maxSize) (hM31 : ec.maxSize < 2 ^ 31)
    (hst : ∀ i, i < N → stripes[i]? = some (stripeAt k n base i))
    (hs : ∀ i, i < N → Strips mem (stripeAt k n base i) ec.maxSize) (hec : Sound ec) (hint : Intact ec) :
    Returns (encodeStripes ec stripes N ec.maxSize mem) fun t =>
      (∀ i, i < N → Strips t (stripeAt k n base i) ec.maxSize) ∧
      (∀ i, i < N → HoldsWord ec.gen t (stripeAt k n base i) ec.maxSize (fun _ => False) fun p j =>
        word mem (stripeAt k n base i) p j) ∧
      ∀ i, i < N → ∀ j, j < k → ∀ p, p < ec.maxSize →
        stripesByte k n base t i j p = stripesByte k n base mem i j p := by
  refine (stripes_written (fun r => k ≤ r)
    (fun i r p => (ec.gen r ⬝ᵥ fun j : Fin k => word mem (stripeAt k n base i) p j).byte) hs
    fun i t hi hst' hsame => ?_).mono fun t ⟨hst', hb⟩ => ⟨hst', fun i hi r hr _ p hp => ?_, fun i hi j hj p hp => ?_⟩
  · rw [hst i hi, Option.bind_eq_bind, Option.bind_some]
    rw [← front_append_back (stripeAt k n base i)] at hst'
    refine (encodePtr_mul ec hM hst' (Nat.dvd_refl _) hM31).bind fun r ⟨_, hw⟩ => returns_some ?_
    have hword := encode_holds hec hint hst' (Nat.le_refl _) hw
    rw [front_append_back] at hw hword
    refine hw.congrVal fun x hx hkx p hp => ?_
    rw [← hw.stripByte_set hx hkx hp]
    refine congrArg GF256.byte ((hword x hx id p hp).trans (congrArg (ec.gen x ⬝ᵥ ·) (funext fun j => ?_)))
    exact congrArg GF256.mk (hsame j (by omega) p hp)
  · by_cases hkr : k ≤ r
    · exact congrArg GF256.mk ((hb i hi r hr p hp).1 hkr)
    · rw [gen_data hec (Nat.not_le.1 hkr)]
      exact congrArg GF256.mk ((hb i hi r hr p hp).2 hkr)
  · exact (hb i hi j (by omega) p hp).2 (by omega)

/-- Every stripe decoded: the words are there again. -/
theorem decodeStripes_spec {err_num : Nat} {err_list : Vector UInt8 err_num} (hk : 0 < k) (hM : 0 < ec.maxSize)
    (hkM : k ≤ ec.maxSize) (hM31 : ec.maxSize < 2 ^ 31) (hl : ValidList k n err_list)
    (hst : ∀ i, i < N → stripes[i]? = some (stripeAt k n base i))
    (hs : ∀ i, i < N → Strips mem (stripeAt k n base i) ec.maxSize)
    (hr : Recoverable ec (erased err_list)) (hd : Decodes ec ec.g_tbls_decode err_list)
    (hword : ∀ i, i < N → HoldsWord ec.gen mem (stripeAt k n base i) ec.maxSize (fun r => r ∈ erased err_list) (d i)) :
    Returns (decodeStripes ec stripes err_list N ec.maxSize mem) fun t =>
      ∀ i, i < N → HoldsWord ec.gen t (stripeAt k n base i) ec.maxSize (fun _ => False) (d i) := by
  have hcov : (ec.maxSize / k + ec.maxSize - 1) / ec.maxSize * ec.maxSize = ec.maxSize :=
    (covered_le hk hM (Nat.dvd_refl _)).2.2 (.inr (.inr ⟨rfl, hkM⟩))
  refine (stripes_written (fun r => r ∈ erased err_list) (fun i r p => (ec.gen r ⬝ᵥ d i p).byte) hs
    fun i t hi hst' hsame => ?_).mono fun t ⟨_, hb⟩ i hi r hrc _ p hp => ?_
  · rw [hst i hi, Option.bind_eq_bind, Option.bind_some]
    refine (cacheDecodePtr_spec hM hk hd hl hr hst' (Nat.lt_of_le_of_lt (Nat.div_le_self _ _) hM31)
      (Nat.le_of_eq hcov)).bind fun u ⟨_, hw⟩ => returns_some ?_
    rw [hcov] at hw
    refine hw.congrVal fun e he hE p hp => congrArg GF256.byte (recovered_word hr (fun x hx hxE p hp => ?_) hp e)
    rw [← hword i hi x hx hxE p hp]
    exact congrArg GF256.mk (hsame x hx p hp)
  · by_cases hE : r ∈ erased err_list
    · exact congrArg GF256.mk ((hb i hi r hrc p hp).1 hE)
    · rw [← hword i hi r hrc hE p hp]
      exact congrArg GF256.mk ((hb i hi r hrc p hp).2 hE)

end

/-! ## The pipeline -/

/-- **Data through the stripes and back.** The scheduler's stripes, encoded,
deprived of the listed chunks and decoded from the cached tables, hold in all
chunks what they held after the encoding; the data chunks are the data and
zeros. `mem₃` is the memory after the loss: it holds anything in the listed
chunks. -/
theorem stripe_pipeline (raw : IsaEC k n) {thread_num chunk_size total_size : Nat} (hk : 0 < k) (hkn : k + n ≤ 256)
    (hkc : k ≤ chunk_size) (hc31 : chunk_size < 2 ^ 31) (hpad : stripeNum k chunk_size total_size * k < 2 ^ 31)
    {data : Ptr} {mem : Mem} (hdata : Valid mem data total_size) :
    Returns (new k n total_size chunk_size) fun s =>
      Returns (stripeFirstOutinside s data mem) fun f =>
        Returns (IsaEC.new raw chunk_size thread_num) fun ec =>
          Returns (encodeStripes ec f.1 (s.strip_len / s.chunk_size) chunk_size f.2) fun mem₂ =>
            ∀ (err_list : Vector UInt8 n) (mem₃ : Mem), (∀ l, l < n → entry err_list l < k + n) →
              (∀ v ∈ f.1, Strips mem₃ v chunk_size ∧
                SameOutside mem₂ mem₃ v chunk_size fun e => e ∈ erased err_list) →
              Returns (cacheGTbls ec err_list) fun c =>
                Returns (decodeStripes c.1 f.1 err_list (s.strip_len / s.chunk_size) chunk_size mem₃) fun mem₄ =>
                  dataChunks k chunk_size f.1 mem₄ =
                      bytesAt mem data total_size ++ List.replicate s.append_len 0 ∧
                    ∀ v ∈ f.1, SameOutside mem₂ mem₄ v chunk_size fun _ => False := by
  have hc : 0 < chunk_size := Nat.lt_of_lt_of_le hk hkc
  rw [new_eq n hk (by omega) hc hc31 hpad]
  refine returns_some ?_
  have hle := @total_le k chunk_size total_size hk hc
  refine (stripeFirstOutinside_spec hk hc hc31 hpad rfl (by omega)
    (fun x hx => load_eq (hdata x hx))).mono fun f hf => ?_
  obtain ⟨stripes, mem₁⟩ := f
  simp only [Nat.mul_div_cancel _ hc] at hf ⊢
  generalize stripeNum k chunk_size total_size = N at *
  obtain ⟨ec, he⟩ := new_isSome raw chunk_size thread_num hkn
  have hfr := new_fresh he
  rw [he]
  obtain rfl : ec.maxSize = chunk_size := hfr.maxSize_eq
  refine returns_some ?_
  have hst : ∀ i, i < N → stripes[i]? = some (stripeAt k n mem.size i) := hf.stripe
  have hrow : ∀ i, i < N → i * (k + n) + (k + n) ≤ N * (k + n) := fun i hi => by
    rw [← Nat.succ_mul]
    exact Nat.mul_le_mul_right _ hi
  have hmem : ∀ v, v ∈ stripes ↔ ∃ i, i < N ∧ v = stripeAt k n mem.size i := fun v => by
    rw [Array.mem_iff_getElem?]
    refine ⟨fun ⟨i, hi⟩ => ?_, fun ⟨i, hi, hv⟩ => ⟨i, hv ▸ hst i hi⟩⟩
    have hiN : i < N := hf.size ▸ (Array.getElem?_eq_some_iff.1 hi).1
    rw [hst i hiN] at hi
    exact ⟨i, hiN, (Option.some.inj hi).symm⟩
  refine (encodeStripes_spec hc hc31 hst (fun i hi => hf.bytes.strips (hrow i hi)) hfr.sound hfr.intact).mono
    fun mem₂ ⟨_, hword, hsame⟩ => ?_
  intro err_list mem₃ hl hloss
  have hvl : ValidList k n err_list := ⟨Nat.le_refl n, hl⟩
  have hr := hvl.recoverable hkn hfr.sound
  refine (cacheGTbls_spec hfr.sound hvl hr).mono fun c ⟨_, hca⟩ => ?_
  have hsc := hca.toSameCode
  have hloss' : ∀ i, i < N → Strips mem₃ (stripeAt k n mem.size i) ec.maxSize ∧
      SameOutside mem₂ mem₃ (stripeAt k n mem.size i) ec.maxSize fun e => e ∈ erased err_list := fun i hi =>
    hloss _ ((hmem _).2 ⟨i, hi, rfl⟩)
  have hword₃ := fun i hi => (hword i hi).congr (hloss' i hi).2
  rw [← hsc.gen] at hword hword₃
  rw [← hsc.maxSize] at hc hc31 hkc hle hf hword hword₃ hloss' ⊢
  refine (decodeStripes_spec hk hc hkc hc31 hvl hst (fun i hi => (hloss' i hi).1) (hsc.recoverable hr) hca.decodes
    hword₃).mono fun mem₄ hword₄ => ⟨?_, fun v hv => ?_⟩
  · refine dataChunks_eq hf.size hle fun i v hi j hj p hp => ?_
    have hiN : i < N := hf.size ▸ (Array.getElem?_eq_some_iff.1 hi).1
    obtain rfl := Option.some.inj ((hst i hiN).symm.trans hi)
    have hjn : j < k + n := by omega
    -- the data chunk as the scheduler filled it
    have hchunk := congrArg (Option.getD · 0) (hf.load_chunk hi hjn hp)
    rw [chunkByte, if_pos hj, Option.getD_some] at hchunk
    rw [← hchunk]
    refine congrArg GF256.byte ((hword₄ i hiN j hjn id p hp).trans ?_)
    rw [gen_data (hsc.sound hfr.sound) hj]
    rfl
  · obtain ⟨i, hi, rfl⟩ := (hmem v).1 hv
    exact (hword i hi).bytes (hword₄ i hi)

/-- Three bytes in one stripe of two chunks of two bytes. Chunk 0 is lost and
reads 0, 9. -/
theorem stripe_pipeline_three : ∃ ec : IsaEC 2 1, IsaEC.new default 2 4 = some ec ∧
    (do
      let s ← new 2 1 3 2
      let f ← stripeFirstOutinside s ⟨0, 0⟩ #[#[5, 6, 7]]
      let mem ← encodeStripes ec f.1 (s.strip_len / s.chunk_size) 2 f.2
      return (s, f.1, mem)) =
      some (⟨3, 2, 4, 1, 2⟩, #[ownBuffers 1 3], #[#[5, 6, 7], #[5, 6], #[7, 0], #[122, 3]]) ∧
    Returns (cacheGTbls ec #v[0]) fun c =>
      Returns (decodeStripes c.1 #[ownBuffers 1 3] #v[0] 1 2 #[#[5, 6, 7], #[0, 9], #[7, 0], #[122, 3]]) fun mem₄ =>
        dataChunks 2 2 #[ownBuffers 1 3] mem₄ = [5, 6, 7, 0] ∧
          ∀ v ∈ #[ownBuffers 1 3], SameOutside #[#[5, 6, 7], #[5, 6], #[7, 0], #[122, 3]] mem₄ v 2 fun _ => False := by
  have hcomp : (IsaEC.new (default : IsaEC 2 1) 2 4 >>= fun ec => do
      let s ← new 2 1 3 2
      let f ← stripeFirstOutinside s ⟨0, 0⟩ #[#[5, 6, 7]]
      let mem ← encodeStripes ec f.1 (s.strip_len / s.chunk_size) 2 f.2
      return (s, f.1, mem)) =
      some (⟨3, 2, 4, 1, 2⟩, #[ownBuffers 1 3], #[#[5, 6, 7], #[5, 6], #[7, 0], #[122, 3]]) := by
    decide +kernel
  obtain ⟨s, hs, ⟨stripes, mem₁⟩, hf, ec, he, mem₂, hm, hpipe⟩ := @stripe_pipeline 2 1 default 4 2 3 (by decide)
    (by decide) (by decide) (by decide) (by decide) ⟨0, 0⟩ #[#[5, 6, 7]] (by decide)
  rw [he, Option.bind_eq_bind, Option.bind_some] at hcomp
  refine ⟨ec, he, hcomp, ?_⟩
  rw [hs, Option.bind_eq_bind, Option.bind_some, hf, Option.bind_eq_bind, Option.bind_some, hm,
    Option.bind_eq_bind, Option.bind_some] at hcomp
  simp only [Option.pure_def, Option.some.injEq, Prod.mk.injEq] at hcomp
  obtain ⟨rfl, rfl, rfl⟩ := hcomp
  refine hpipe #v[0] #[#[5, 6, 7], #[0, 9], #[7, 0], #[122, 3]] (by decide) fun v hv => ?_
  obtain rfl : v = ownBuffers 1 3 := by simpa using hv
  refine ⟨by decide, ?_⟩
  unfold SameOutside
  decide

end ErasureCode.Scheduler
