import Mathlib.Tactic.NormNum
import ErasureCode.Core.Alloc
import ErasureCode.Scheduler.Padding

/-!
# Stripes of chunks

`stripe_first_outinside` (`src/IsaEC.cpp:429-454`) gives every chunk of every
stripe a buffer of its own and copies the data into the first `k` chunks of
each stripe.

`stripeFirstOutinside_spec`: the buffers are consecutive and fresh, data chunk
`j` of stripe `i` holds the bytes of the padded data at that place, and every
parity chunk is zero. `dataChunks_eq`: read stripe by stripe, the data chunks
are the data and the padding.
-/
namespace ErasureCode.Scheduler

open ErasureCode.Core

variable {k n : Nat}

/-- One chunk: its buffer, and what is copied into it.
mirrors src/IsaEC.cpp:440-450 -/
def chunk (s : Scheduler k n) (data_chunk_num : Int) (data : Ptr) (i j : Nat) (mem : Mem) : Option (Mem × Ptr) := do
  let (mem, p) := calloc mem s.chunk_size
  if k ≤ j then return (mem, p)
  let c ← addInt (← mulInt i k) j
  if data_chunk_num < c then return (mem, p)
  let src := data.add (mulSize c s.chunk_size)
  if data_chunk_num = c then
    return (← memcpy mem p src (← modSize s.total_size s.chunk_size), p)
  return (← memcpy mem p src s.chunk_size, p)

/-- One stripe; its null pointers are all set by the loop.
mirrors src/IsaEC.cpp:436-451 -/
def stripe (s : Scheduler k n) (data_chunk_num : Int) (data : Ptr) (i : Nat) (mem : Mem) :
    Option (Vector Ptr (k + n) × Mem) :=
  forUp 0 (k + n) (Vector.replicate (k + n) default, mem) fun j (v, mem) => do
    let (mem, p) ← chunk s data_chunk_num data i j mem
    return (← wr v j p, mem)

/-- The stripes in order, and the memory.
mirrors src/IsaEC.cpp:429-454 -/
def stripeFirstOutinside (s : Scheduler k n) (data : Ptr) (mem : Mem) : Option (Array (Vector Ptr (k + n)) × Mem) := do
  let num ← divSize s.append_total_size (mulSize k s.chunk_size)
  let data_chunk_num := toInt (← divSize s.total_size s.chunk_size)
  forUp 0 num (#[], mem) fun i (stripes, mem) => do
    let (v, mem) ← stripe s data_chunk_num data i mem
    return (stripes.push v, mem)

/-- Byte `x` of the padded data. -/
def padded (D : Nat → UInt8) (total_size x : Nat) : UInt8 := if x < total_size then D x else 0

/-- Byte `p` of chunk `j` of stripe `i`. -/
def chunkByte (k chunk_size total_size : Nat) (D : Nat → UInt8) (i j p : Nat) : UInt8 :=
  if j < k then padded D total_size ((i * k + j) * chunk_size + p) else 0

/-- The buffer `data` holds the bytes `D`. -/
def HoldsData (mem : Mem) (data : Ptr) (total_size : Nat) (D : Nat → UInt8) : Prop :=
  ∀ x, x < total_size → load mem (data.add x) = some (D x)

section
variable {mem mem' : Mem} {data : Ptr} {D : Nat → UInt8} {s : Scheduler k n}

theorem HoldsData.allocated (h : HoldsData mem data s.total_size D) {c L : Nat} {val : Nat → Nat → UInt8}
    (ha : Allocated mem mem' c L val) : HoldsData mem' data s.total_size D := fun x hx => by
  rw [ha.load_old (by rw [h x hx]; rfl), h x hx]

/-- A copy into a fresh buffer of `L` bytes, from position `o` of the data on. -/
theorem copy_spec {total_size : Nat} (hD : HoldsData mem data total_size D) {L o len : Nat} (hlen : len ≤ L)
    (hin : o + len ≤ total_size) (hout : ∀ p, len ≤ p → p < L → total_size ≤ o + p) :
    Returns (memcpy (calloc mem L).1 (calloc mem L).2 (data.add o) len)
      fun mem' => Allocated mem mem' 1 L fun _ p => padded D total_size (o + p) := by
  have hsrc : ∀ p, p < len → load (calloc mem L).1 ((data.add o).add p) = some (D (o + p)) := fun p hp => by
    have hx := hD (o + p) (by omega)
    rw [Ptr.add_add, calloc_load_old (load_buf_lt (by rw [hx]; rfl)), hx]
  by_cases h0 : len = 0
  · -- nothing is copied
    subst h0
    refine ⟨_, forUp_of_le (Nat.le_refl 0) _ _, Allocated.one (Written.refl _ fun _ => 0) (fun _ h => h.elim)
      fun p hp => ⟨fun h => h.elim, fun _ => ?_⟩⟩
    rw [padded, if_neg (Nat.not_lt.2 (hout p (Nat.zero_le _) hp))]
  · have hbuf : data.buf < mem.size := by
      have hx := hD o (by omega)
      simpa using load_buf_lt (show (load mem (data.add o)).isSome by rw [hx]; rfl)
    refine (memcpy_spec (fun p hp => by rw [hsrc p hp]; rfl) (fun p hp => ?_) (Nat.ne_of_lt hbuf)).mono
      fun mem' h => Allocated.one h (fun q ⟨p, _, e⟩ => by rw [e]; rfl) fun p hp => ⟨?_, fun hd => ?_⟩
    · rw [calloc_load_new mem (by omega)]
      rfl
    · rintro ⟨p', hp', e⟩
      obtain rfl : p = p' := by simpa [calloc, Ptr.add] using congrArg Ptr.off e
      rw [padded, if_pos (by omega), byteAt]
      simp only [calloc, Nat.sub_zero]
      have hx := hsrc p hp'
      simp only [calloc] at hx
      rw [hx]
      rfl
    · have hp' : len ≤ p := by
        by_contra hc
        exact hd ⟨p, by omega, by simp [calloc, Ptr.add]⟩
      rw [padded, if_neg (Nat.not_lt.2 (hout p hp' hp))]

theorem chunk_spec (hc : 0 < s.chunk_size) (hD : HoldsData mem data s.total_size D) {i j : Nat}
    (hint : j < k → i * k + j < 2 ^ 31) (hsize : j < k → (i * k + j) * s.chunk_size < 2 ^ 64) :
    Returns (chunk s ((s.total_size / s.chunk_size : Nat) : Int) data i j mem) fun r => r.2 = ⟨mem.size, 0⟩ ∧
      Allocated mem r.1 1 s.chunk_size fun _ => chunkByte k s.chunk_size s.total_size D i j := by
  have hzero : (∀ p, p < s.chunk_size → chunkByte k s.chunk_size s.total_size D i j p = 0) →
      Allocated mem (calloc mem s.chunk_size).1 1 s.chunk_size fun _ => chunkByte k s.chunk_size s.total_size D i j :=
    fun h => Allocated.one (Written.refl _ fun _ => 0) (fun _ h => h.elim) fun p hp =>
      ⟨fun h => h.elim, fun _ => h p hp⟩
  unfold chunk
  by_cases hj : k ≤ j
  · simp only [if_pos hj]
    exact returns_some ⟨rfl, hzero fun p _ => by rw [chunkByte, if_neg (by omega)]⟩
  · have hjk : j < k := by omega
    have hval : ∀ p, chunkByte k s.chunk_size s.total_size D i j p =
        padded D s.total_size ((i * k + j) * s.chunk_size + p) := fun p => if_pos hjk
    have hq := Nat.div_add_mod s.total_size s.chunk_size
    have hr := Nat.mod_lt s.total_size hc
    simp only [if_neg hj, mulInt_eq (show i * k < 2 ^ 31 by have := hint hjk; omega), addInt_eq (hint hjk),
      Option.bind_eq_bind, Option.bind_some, mulSize_eq (hsize hjk), modSize_eq hc, Nat.cast_lt, Nat.cast_inj]
    generalize hQ : s.total_size / s.chunk_size = Q at *
    generalize hC : i * k + j = C at *
    split
    · -- past the data
      rename_i hlt
      have := Nat.mul_le_mul_right s.chunk_size (show Q + 1 ≤ C from hlt)
      rw [Nat.add_mul, Nat.mul_comm Q] at this
      exact returns_some ⟨rfl, hzero fun p _ => by rw [hval, padded, if_neg (by omega)]⟩
    · rename_i hlt
      split
      · -- the chunk in which the data ends
        rename_i heq
        rw [← heq, Nat.mul_comm Q] at hval ⊢
        rw [Nat.mul_comm s.chunk_size]
        rw [Nat.mul_comm s.chunk_size] at hval hq
        refine (copy_spec hD (Nat.le_of_lt hr) (Nat.le_of_eq hq) fun p h1 h2 => by omega).bind fun mem' h =>
          returns_some ⟨rfl, h.congrVal fun _ _ p _ => (hval p).symm⟩
      · -- a full chunk
        have := Nat.mul_le_mul_right s.chunk_size (show C + 1 ≤ Q by omega)
        rw [Nat.add_mul, Nat.mul_comm Q] at this
        refine (copy_spec hD (Nat.le_refl _) (by omega) fun p h1 h2 => by omega).bind fun mem' h =>
          returns_some ⟨rfl, h.congrVal fun _ _ p _ => (hval p).symm⟩

theorem stripe_spec (hc : 0 < s.chunk_size) (hD : HoldsData mem data s.total_size D) {i : Nat}
    (hint : ∀ j, j < k → i * k + j < 2 ^ 31) (hsize : ∀ j, j < k → (i * k + j) * s.chunk_size < 2 ^ 64) :
    Returns (stripe s ((s.total_size / s.chunk_size : Nat) : Int) data i mem) fun r =>
      r.1 = ownBuffers mem.size (k + n) ∧
        Allocated mem r.2 (k + n) s.chunk_size (chunkByte k s.chunk_size s.total_size D i) := by
  refine (Returns.forUp (fun j (r : Vector Ptr (k + n) × Mem) => (∀ x, x < j → cell r.1 x = ⟨mem.size + x, 0⟩) ∧
    Allocated mem r.2 j s.chunk_size (chunkByte k s.chunk_size s.total_size D i)) (Nat.zero_le _)
    ⟨fun x hx => by omega, Allocated.refl mem _ _⟩ fun j r _ hj ⟨hv, ha⟩ => ?_).mono fun r ⟨hv, ha⟩ => ⟨?_, ha⟩
  · refine (chunk_spec hc (hD.allocated ha) (hint j) (hsize j)).bind fun u ⟨hp, hu⟩ => ?_
    obtain ⟨t, p⟩ := u
    simp only [wr_eq r.1 hj, Option.bind_eq_bind, Option.bind_some]
    refine returns_some ⟨fun x hx => ?_, ha.append hu fun x hx p _ => by rw [show x = 0 by omega]; rfl⟩
    by_cases hxj : x = j
    · rw [hxj, cell_upd_self _ hj, ← ha.size]
      exact hp
    · rw [cell_upd_ne _ (Ne.symm hxj), hv x (by omega)]
  · exact buffer_ext fun x hx => by rw [hv x hx, cell_ownBuffers hx]

/-- What the stripes look like: `N` of them, in fresh buffers. -/
structure Stripes (mem mem' : Mem) (stripes : Array (Vector Ptr (k + n))) (N chunk_size total_size : Nat)
    (D : Nat → UInt8) : Prop where
  size : stripes.size = N
  stripe : ∀ i, i < N → stripes[i]? = some (ownBuffers (mem.size + i * (k + n)) (k + n))
  bytes : Allocated mem mem' (N * (k + n)) chunk_size fun x =>
    chunkByte k chunk_size total_size D (x / (k + n)) (x % (k + n))

/-- The bytes of chunk `j` of stripe `i`. -/
theorem Stripes.load_chunk {stripes : Array (Vector Ptr (k + n))} {N chunk_size total_size : Nat}
    (h : Stripes mem mem' stripes N chunk_size total_size D) {i j p : Nat} {v : Vector Ptr (k + n)}
    (hi : stripes[i]? = some v) (hj : j < k + n) (hp : p < chunk_size) :
    load mem' ((cell v j).add p) = some (chunkByte k chunk_size total_size D i j p) := by
  have hiN : i < N := h.size ▸ (Array.getElem?_eq_some_iff.1 hi).1
  obtain rfl := Option.some.inj ((h.stripe i hiN).symm.trans hi)
  have hbyte := h.bytes.new (i * (k + n) + j) (pos_lt hiN hj) p hp
  rw [Nat.mul_comm i, Nat.mul_add_div (by omega), Nat.div_eq_of_lt hj, Nat.mul_add_mod, Nat.mod_eq_of_lt hj,
    Nat.add_zero, Nat.mul_comm (k + n), ← Nat.add_assoc] at hbyte
  rw [cell_ownBuffers hj, Ptr.add, Nat.zero_add]
  exact hbyte

theorem stripeFirstOutinside_spec (hk : 0 < k) (hc : 0 < s.chunk_size) (hc31 : s.chunk_size < 2 ^ 31)
    (hpad : stripeNum k s.chunk_size s.total_size * k < 2 ^ 31)
    (hmul : s.append_total_size = stripeNum k s.chunk_size s.total_size * (k * s.chunk_size))
    (hk31 : k < 2 ^ 31) (hD : HoldsData mem data s.total_size D) :
    Returns (stripeFirstOutinside s data mem) fun r =>
      Stripes mem r.2 r.1 (stripeNum k s.chunk_size s.total_size) s.chunk_size s.total_size D := by
  have hle := @total_le k s.chunk_size s.total_size hk hc
  generalize stripeNum k s.chunk_size s.total_size = N at *
  have hkc : 0 < k * s.chunk_size := Nat.mul_pos hk hc
  have hkc64 : k * s.chunk_size < 2 ^ 64 :=
    Nat.lt_trans (Nat.mul_lt_mul'' hk31 hc31) (by norm_num)
  have hQ : s.total_size / s.chunk_size < 2 ^ 31 := by
    rw [← Nat.mul_assoc] at hle
    exact Nat.lt_of_le_of_lt (Nat.le_trans (Nat.div_le_div_right hle) (Nat.le_of_eq (Nat.mul_div_cancel _ hc))) hpad
  have hint : ∀ i, i < N → ∀ j, j < k → i * k + j < 2 ^ 31 := fun i hi j hj =>
    Nat.lt_trans (pos_lt hi hj) hpad
  unfold stripeFirstOutinside
  rw [mulSize_eq hkc64, divSize_eq hkc, hmul, Nat.mul_div_cancel _ hkc, Option.bind_eq_bind, Option.bind_some,
    divSize_eq hc, Option.bind_eq_bind, Option.bind_some, toInt_eq hQ]
  refine Returns.forUp (fun i (r : Array (Vector Ptr (k + n)) × Mem) =>
    Stripes mem r.2 r.1 i s.chunk_size s.total_size D) (Nat.zero_le N)
    ⟨rfl, fun i hi => by omega, (Allocated.refl mem _ _).cast (Nat.zero_mul _).symm⟩ fun i r _ hi hr => ?_
  refine (stripe_spec hc (hD.allocated hr.bytes) (hint i hi) fun j hj => ?_).bind fun u ⟨hv, hu⟩ =>
    returns_some ⟨?_, fun x hx => ?_, ?_⟩
  · exact Nat.lt_trans (Nat.mul_lt_mul'' (hint i hi j hj) hc31) (by norm_num)
  · rw [Array.size_push, hr.size]
  · rw [Array.getElem?_push, hr.size]
    by_cases hxi : x = i
    · rw [if_pos hxi, hv, hr.bytes.size, hxi]
    · rw [if_neg hxi, hr.stripe x (by omega)]
  · refine (hr.bytes.append hu fun x hx p _ => ?_).cast (Nat.succ_mul i (k + n)).symm
    rw [Nat.mul_comm i, Nat.mul_add_div (by omega), Nat.div_eq_of_lt hx, Nat.mul_add_mod, Nat.mod_eq_of_lt hx,
      Nat.add_zero]

end

/-! ## Read stripe by stripe -/

/-- The data chunks of all stripes, in order. -/
def dataChunks {c : Nat} (k chunk_size : Nat) (stripes : Array (Vector Ptr c)) (mem : Mem) : List UInt8 :=
  stripes.toList.flatMap fun v => (List.range k).flatMap fun j => bytesAt mem (cell v j) chunk_size

/-- What is read at their bytes. -/
def chunkReads {c : Nat} (k chunk_size : Nat) (stripes : Array (Vector Ptr c)) (mem : Mem) : List (Option UInt8) :=
  stripes.toList.flatMap fun v => (List.range k).flatMap fun j =>
    (List.range chunk_size).map fun p => load mem ((cell v j).add p)

/-- A range read in rows. -/
theorem range_mul_map {α : Type} (f : Nat → α) (R c : Nat) :
    (List.range (R * c)).map f = (List.range R).flatMap fun r => (List.range c).map fun x => f (r * c + x) := by
  induction R with
  | zero => simp
  | succ R ih => simp [Nat.succ_mul, List.range_add, List.range_succ, ih, List.flatMap_append, Function.comp_def]

theorem padded_map (D : Nat → UInt8) {total_size len : Nat} (h : total_size ≤ len) :
    (List.range len).map (padded D total_size) =
      (List.range total_size).map D ++ List.replicate (len - total_size) 0 := by
  obtain ⟨d, rfl⟩ := Nat.exists_eq_add_of_le h
  rw [List.range_add, List.map_append, List.map_map, Nat.add_sub_cancel_left]
  congr 1
  · exact List.map_congr_left fun x hx => if_pos (List.mem_range.1 hx)
  · refine List.eq_replicate_iff.2 ⟨by simp, fun b hb => ?_⟩
    obtain ⟨x, _, rfl⟩ := List.mem_map.1 hb
    exact if_neg (Nat.not_lt.2 (Nat.le_add_right _ _))

/-- Chunk by chunk, the positions of the padded data in order. -/
theorem stripes_flatMap {α : Type} {stripes : Array (Vector Ptr (k + n))} {N chunk_size : Nat}
    {f : Vector Ptr (k + n) → Nat → Nat → α} {g : Nat → α} (hN : stripes.size = N)
    (h : ∀ i v, stripes[i]? = some v → ∀ j, j < k → ∀ p, p < chunk_size → f v j p = g ((i * k + j) * chunk_size + p)) :
    (stripes.toList.flatMap fun v => (List.range k).flatMap fun j => (List.range chunk_size).map (f v j)) =
      (List.range (N * (k * chunk_size))).map g := by
  rw [range_mul_map]
  have hlist : stripes.toList = (List.range N).map fun i => (stripes[i]?).getD default := by
    refine List.ext_getElem (by simp [hN]) fun i h1 h2 => ?_
    simp at h1
    simp [h1]
  rw [hlist, List.flatMap_map]
  refine List.flatMap_congr fun i hi => ?_
  rw [range_mul_map]
  refine List.flatMap_congr fun j hj => List.map_congr_left fun p hp => ?_
  have hiN : i < stripes.size := by rw [hN]; exact List.mem_range.1 hi
  have := h i stripes[i] (Array.getElem?_eq_getElem hiN) j (List.mem_range.1 hj) p (List.mem_range.1 hp)
  rw [Array.getElem?_eq_getElem hiN, Option.getD_some]
  rw [Nat.add_mul, Nat.mul_assoc, Nat.add_assoc] at this
  exact this

section
variable {stripes : Array (Vector Ptr (k + n))} {mem : Mem} {N chunk_size total_size : Nat} {D : Nat → UInt8}

/-- Chunks that hold the padded data read as the data and the padding. -/
theorem dataChunks_eq (hN : stripes.size = N) (hle : total_size ≤ N * (k * chunk_size))
    (h : ∀ i v, stripes[i]? = some v → ∀ j, j < k → ∀ p, p < chunk_size →
      Core.stripByte mem v j p = padded D total_size ((i * k + j) * chunk_size + p)) :
    dataChunks k chunk_size stripes mem =
      (List.range total_size).map D ++ List.replicate (N * (k * chunk_size) - total_size) 0 := by
  rw [← padded_map D hle]
  exact stripes_flatMap hN h

theorem chunkReads_eq (hN : stripes.size = N) (hle : total_size ≤ N * (k * chunk_size))
    (h : ∀ i v, stripes[i]? = some v → ∀ j, j < k → ∀ p, p < chunk_size →
      load mem ((cell v j).add p) = some (padded D total_size ((i * k + j) * chunk_size + p))) :
    chunkReads k chunk_size stripes mem =
      ((List.range total_size).map D ++ List.replicate (N * (k * chunk_size) - total_size) 0).map some := by
  rw [← padded_map D hle, List.map_map]
  exact stripes_flatMap hN h

end

end ErasureCode.Scheduler
