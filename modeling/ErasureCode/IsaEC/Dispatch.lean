import ErasureCode.IsaEC.Histories
import ErasureCode.Isal.DotProd

/-!
# The methods on any processor

The methods call `ec_encode_data`, which is another function on another processor.
`encodeOn isa`, `decodeOn isa` and so on are the methods that call the function for
`isa`; on `Isa.base` they are those of `IsaEC.Object`.

A program is a list of method calls on one object, with anything done to the memory
before each. `programs_agree`: when every call finds the strips and tables that it
needs, the program leaves the same object and the same memory on every processor.
-/
namespace ErasureCode.IsaEC

open ErasureCode.Core Isal

variable {k n err_num : Nat}

/-! ## The methods -/

section
variable (isa : Isa) (ec : IsaEC k n)

/-- mirrors src/IsaEC.cpp:80,121 -/
def encodeFragOn (s : Vector (Option Ptr) (k + n) × Mem) : Option (Vector (Option Ptr) (k + n) × Mem) := do
  return (s.1, ← ecEncodeDataOn ec.maxSize k n ec.g_tbls (slot s.1) (fun l => slot s.1 (k + l)) s.2 isa)

/-- The rounds in order, as one thread runs them.
mirrors src/IsaEC.cpp:60-83 -/
def encodeOn (in_ : Vector Ptr k) (out : Vector Ptr n) (size : Nat) (mem : Mem) : Option (Mem × Bool) := do
  let total_len := toInt (← divSize size k)
  let s ← forStep (toSize total_len) ec.maxSize (Vector.replicate (k + n) none, mem) fun index s => do
    let s ← forUp 0 (k + n) s (storeFrag in_ out index)
    encodeFragOn isa ec s
  return (s.2, true)

/-- mirrors src/IsaEC.cpp:110-122 -/
def encodePtrBlockOn (in_ : Vector Ptr k) (out : Vector Ptr n) (i : Nat) (mem : Mem) : Option Mem := do
  let index ← mulInt i ec.maxSize
  let frag_ptrs ← fillPtrs (k + n) (fragPtr in_ out index)
  ecEncodeDataOn ec.maxSize k n ec.g_tbls (slot frag_ptrs) (fun l => slot frag_ptrs (k + l)) mem isa

/-- mirrors src/IsaEC.cpp:99-125 -/
def encodePtrOn (in_ : Vector Ptr k) (out : Vector Ptr n) (size : Nat) (mem : Mem) : Option (Mem × Bool) := do
  let iter_num := toInt (← divSize size ec.maxSize)
  let mem ← forUp 0 iter_num.toNat mem (encodePtrBlockOn isa ec in_ out)
  return (mem, true)

/-- mirrors src/IsaEC.cpp:140-155,174-188,211-225 -/
def recoverBlockOn (tbls : Vector UInt8 (n * k * 32)) (matrix : Vector Ptr (k + n)) (err_list : Vector UInt8 err_num)
    (index : Nat) (mem : Mem) : Option Mem := do
  let recover_srcs ← fillPtrs k fun i => do stripPtr matrix index (← ec.decode_index[i]?)
  let recover_outp ← fillPtrs err_num fun i => do stripPtr matrix index (← err_list[i]?)
  ecEncodeDataOn ec.maxSize k err_num tbls (slot recover_srcs) (slot recover_outp) mem isa

/-- mirrors src/IsaEC.cpp:127-158 -/
def decodeOn (matrix : Vector Ptr (k + n)) (err_list : Vector UInt8 err_num) (size : Nat) (mem : Mem) :
    Option (IsaEC k n × Mem × Bool) := do
  let ec ← loadDecodeTables ec err_list
  let total_len := toInt (← divSize size k)
  let mem ← forStep (toSize total_len) ec.maxSize mem (recoverBlockOn isa ec ec.g_tbls matrix err_list)
  return (ec, mem, true)

/-- mirrors src/IsaEC.cpp:160-191 -/
def decodePtrOn (matrix : Vector Ptr (k + n)) (err_list : Vector UInt8 err_num) (size : Nat) (mem : Mem) :
    Option (IsaEC k n × Mem × Bool) := do
  let ec ← loadDecodeTables ec err_list
  let mem ← forStep size ec.maxSize mem (recoverBlockOn isa ec ec.g_tbls matrix err_list)
  return (ec, mem, true)

/-- mirrors src/IsaEC.cpp:202-228 -/
def cacheDecodePtrOn (matrix : Vector Ptr (k + n)) (err_list : Vector UInt8 err_num) (size : Nat) (mem : Mem) :
    Option (Mem × Bool) := do
  let total_len := toInt (← divSize size k)
  let mem ← forStep (toSize total_len) ec.maxSize mem (recoverBlockOn isa ec ec.g_tbls_decode matrix err_list)
  return (mem, true)

end

/-! ## One block -/

section
variable {c N srcs dests M L off : Nat} {v : Vector Ptr c} {tbl : Vector UInt8 N} {σ τ : Nat → Nat} {mem : Mem}
  {src dest : Nat → Option Ptr}

/-- Every encoder writes the same window. Several destinations may be one strip,
when `val` gives it one byte. -/
theorem window_on (isa : Isa) (val : Nat → Nat → UInt8) (hs : Strips mem v L) (hσ : ∀ j, j < srcs → σ j < c)
    (hτ : ∀ l, l < dests → τ l < c) (hne : ∀ j, j < srcs → ∀ l, l < dests → σ j ≠ τ l)
    (htbl : dests * srcs * 32 ≤ N) (hsrcs : 0 < srcs) (hx : Expanded tbl (dests * srcs)) (hL : off + M ≤ L)
    (hval : ∀ l, l < dests → ∀ p, p < L →
      val (τ l) p = dotBytes srcs (coef tbl srcs l) fun j => stripByte mem v (σ j) p)
    (hsrc : ∀ j, j < srcs → src j = some ((cell v (σ j)).add off))
    (hdest : ∀ l, l < dests → dest l = some ((cell v (τ l)).add off)) :
    ecEncodeDataOn M srcs dests tbl src dest mem isa = window M srcs dests tbl v σ τ off mem ∧
      ∀ mem', window M srcs dests tbl v σ τ off mem = some mem' → Strips mem' v L := by
  obtain ⟨T, hT⟩ := hs.exists_values val
  have hpos : ∀ r p, ((cell v r).add off).add p = (cell v r).add (off + p) := fun r p => Ptr.add_add _ _ _
  have job : Job mem M srcs dests tbl src dest (fun j => (cell v (σ j)).add off) (fun l => (cell v (τ l)).add off) T :=
    { room := htbl
      expanded := hx
      src := hsrc
      dest := hdest
      windows := ⟨fun j hj p hp => by rw [hpos]; exact hs.valid _ (hσ j hj) _ (by omega),
        fun l hl p hp => by rw [hpos]; exact hs.valid _ (hτ l hl) _ (by omega),
        fun j hj l hl p hp p' hp' => by
          rw [hpos, hpos]
          exact hs.disj _ (hσ j hj) _ (hτ l hl) (hne j hj l hl) _ (by omega) _ (by omega)⟩
      target := fun l hl p _ hp => by
        rw [hpos, hT _ (hτ l hl) _ (by omega), hval l hl _ (by omega)]
        exact dotBytes_congr (fun _ _ => rfl) fun j _ => by rw [hpos]; rfl }
  refine ⟨(ecEncodeDataOn_eq isa job hsrcs).trans (ecEncodeData_congr hsrc hdest mem), fun mem' h => ?_⟩
  have hspec := window_spec hs hσ hτ hne htbl hL (T := T) fun l hl p _ hp => by
    rw [hT _ (hτ l hl) _ (by omega), hval l hl _ (by omega)]
  exact hs.of_isSome fun q => (hspec.of_eq h).isSome

end

section
variable {isa : Isa} {ec : IsaEC k n} {in_ : Vector Ptr k} {out : Vector Ptr n} {matrix : Vector Ptr (k + n)}
  {err_list : Vector UInt8 err_num} {mem : Mem} {L off : Nat}

theorem encodeWindow_on (isa : Isa) (hk : 0 < k) (hx : Expanded ec.g_tbls (n * k)) (hs : Strips mem (in_ ++ out) L)
    (hL : off + ec.maxSize ≤ L) {frag_ptrs : Vector (Option Ptr) (k + n)}
    (h : ∀ i, i < k + n → slot frag_ptrs i = some ((cell (in_ ++ out) i).add off)) :
    ecEncodeDataOn ec.maxSize k n ec.g_tbls (slot frag_ptrs) (fun l => slot frag_ptrs (k + l)) mem isa =
        ec.encodeWindow in_ out off mem ∧
      ∀ mem', ec.encodeWindow in_ out off mem = some mem' → Strips mem' (in_ ++ out) L :=
  window_on isa (ec.encodedByte mem in_ out) hs (fun j hj => by omega) (fun l hl => by omega)
    (fun j hj l _ => by omega) (Nat.le_refl _) hk hx hL
    (fun l _ p _ => by rw [encodedByte, Nat.add_sub_cancel_left])
    (fun j hj => h j (by omega)) fun l hl => h (k + l) (by omega)

theorem encodeFragOn_eq (hk : 0 < k) (hx : Expanded ec.g_tbls (n * k)) (hs : Strips mem (in_ ++ out) L)
    (hL : off + ec.maxSize ≤ L) {frag_ptrs : Vector (Option Ptr) (k + n)}
    (h : ∀ i, i < k + n → slot frag_ptrs i = some ((cell (in_ ++ out) i).add off)) :
    encodeFragOn isa ec (frag_ptrs, mem) = encodeFrag ec (frag_ptrs, mem) ∧
      ∀ s, encodeFrag ec (frag_ptrs, mem) = some s → Strips s.2 (in_ ++ out) L := by
  obtain ⟨he, hstrips⟩ := encodeWindow_on isa hk hx hs hL h
  rw [encodeFrag_eq ec h, encodeFragOn, he]
  refine ⟨by rw [Option.map_eq_bind]; rfl, fun s hsome => ?_⟩
  obtain ⟨mem', hm, rfl⟩ := Option.map_eq_some_iff.1 hsome
  exact hstrips mem' hm

theorem encodePtrBlockOn_eq (hk : 0 < k) (hx : Expanded ec.g_tbls (n * k)) (hs : Strips mem (in_ ++ out) L) {b : Nat}
    (hL : b * ec.maxSize + ec.maxSize ≤ L) :
    encodePtrBlockOn isa ec in_ out b mem = encodePtrBlock ec in_ out b mem ∧
      ∀ mem', encodePtrBlock ec in_ out b mem = some mem' → Strips mem' (in_ ++ out) L := by
  by_cases hb : b * ec.maxSize < 2 ^ 31
  · obtain ⟨a, ha, hslot⟩ := fillPtrs_spec (f := fragPtr in_ out (b * ec.maxSize)) fun i hi =>
      fragPtr_eq in_ out (b * ec.maxSize) hi
    obtain ⟨he, hstrips⟩ := encodeWindow_on isa hk hx hs hL hslot
    rw [encodePtrBlock_eq ec hb, ← he]
    refine ⟨?_, fun mem' h => hstrips mem' (he.symm.trans h)⟩
    simp only [encodePtrBlockOn, mulInt_eq hb, ha, Option.bind_eq_bind, Option.bind_some]
  · have hnone : mulInt b ec.maxSize = none := if_neg hb
    unfold encodePtrBlockOn encodePtrBlock
    rw [hnone]
    exact ⟨rfl, fun mem' h => nomatch h⟩

theorem recoverBlockOn_eq {tbl : Vector UInt8 (n * k * 32)} (hk : 0 < k) (hx : Expanded tbl (err_num * k))
    (hd : Decodes ec tbl err_list) (hl : ValidList k n err_list) (hr : Recoverable ec (erased err_list))
    (hs : Strips mem matrix L) (hL : off + ec.maxSize ≤ L) :
    recoverBlockOn isa ec tbl matrix err_list off mem = recoverBlock ec tbl matrix err_list off mem ∧
      ∀ mem', recoverBlock ec tbl matrix err_list off mem = some mem' → Strips mem' matrix L := by
  have hlt : ∀ j, j < k → (cell ec.decode_index j).toNat < k + n := fun j hj => hd.index_lt hl hj
  obtain ⟨a, ha, hslot⟩ := fillPtrs_spec (srcPtr_eq matrix hlt off)
  obtain ⟨a', ha', hslot'⟩ := fillPtrs_spec (destPtr_eq matrix hl.2 off)
  obtain ⟨he, hstrips⟩ := window_on isa (fun e p => (ec.recovered (erased err_list) (word mem matrix p) e).byte) hs hlt
    hl.2 (fun j hj i hi => hd.index_ne hj hi) (table_le k hl.1) hk hx hL
    (fun i hi p _ => hd.recovered_byte hr hi p) hslot hslot'
  rw [recoverBlock_eq hlt hl.2]
  refine ⟨?_, hstrips⟩
  unfold recoverBlockOn
  rw [ha, Option.bind_eq_bind, Option.bind_some, ha', Option.bind_eq_bind, Option.bind_some]
  exact he

end

/-! ## The loops -/

/-- Strips with room for the blocks that cover `bytes` bytes. -/
def Room {c : Nat} (ec : IsaEC k n) (mem : Mem) (v : Vector Ptr c) (bytes : Nat) : Prop :=
  ∃ L, Strips mem v L ∧ (bytes + ec.maxSize - 1) / ec.maxSize * ec.maxSize ≤ L

theorem Room.of_maxSize {c bytes : Nat} {ec ec' : IsaEC k n} {mem : Mem} {v : Vector Ptr c} (h : Room ec mem v bytes)
    (hM : ec'.maxSize = ec.maxSize) : Room ec' mem v bytes := by
  rw [Room, hM]
  exact h

theorem block_le {b B M L : Nat} (hb : b < B) (hL : B * M ≤ L) : b * M + M ≤ L := by
  have := Nat.mul_le_mul_right M (Nat.succ_le_of_lt hb)
  rw [Nat.succ_mul] at this
  omega

theorem forStep_congr_inv {σ : Type} {body body' : Nat → σ → Option σ} (I : σ → Prop) {bound M L : Nat} {s : σ}
    (hL : (bound + M - 1) / M * M ≤ L) (h0 : I s)
    (h : ∀ off s, off + M ≤ L → I s → body off s = body' off s ∧ ∀ s', body' off s = some s' → I s') :
    forStep bound M s body = forStep bound M s body' := by
  unfold forStep
  split
  · rfl
  · exact forUp_congr_inv I h0 fun b s _ hb => h (b * M) s (block_le hb hL)

section
variable {isa : Isa} {ec : IsaEC k n} {in_ : Vector Ptr k} {out : Vector Ptr n} {matrix : Vector Ptr (k + n)}
  {err_list : Vector UInt8 err_num} {mem : Mem} {size : Nat}

theorem encodeOn_eq (hk : 0 < k) (hx : Expanded ec.g_tbls (n * k))
    (hroom : Room ec mem (in_ ++ out) (toSize (toInt (size / k)))) :
    encodeOn isa ec in_ out size mem = encode ec in_ out size mem := by
  obtain ⟨L, hs, hL⟩ := hroom
  unfold encodeOn encode
  rw [divSize_eq hk, Option.bind_eq_bind, Option.bind_some]
  refine congrArg (· >>= _) (forStep_congr_inv (fun s => Strips s.2 (in_ ++ out) L) hL hs fun off s hoff hs => ?_)
  obtain ⟨s', he, hmem, hslot⟩ := @storeFrags_spec k n in_ out off s
  rw [he]
  exact encodeFragOn_eq hk hx (hmem ▸ hs) hoff hslot

theorem encodePtrOn_eq (hk : 0 < k) (hx : Expanded ec.g_tbls (n * k))
    (hroom : Room ec mem (in_ ++ out) ((toInt (size / ec.maxSize)).toNat * ec.maxSize)) :
    encodePtrOn isa ec in_ out size mem = encodePtr ec in_ out size mem := by
  obtain ⟨L, hs, hL⟩ := hroom
  unfold encodePtrOn encodePtr
  rcases Nat.eq_zero_or_pos ec.maxSize with h0 | hM
  · rw [divSize, if_pos h0, Option.bind_eq_bind, Option.bind_none, Option.bind_eq_bind, Option.bind_none]
  · rw [ceil_mul hM] at hL
    rw [divSize_eq hM, Option.bind_eq_bind, Option.bind_some, Option.bind_eq_bind, Option.bind_some]
    generalize toInt (size / ec.maxSize) = iter_num at hL
    exact congrArg (· >>= _) (forUp_congr_inv (fun t => Strips t (in_ ++ out) L) hs fun b t _ hb ht =>
      encodePtrBlockOn_eq hk hx ht (block_le hb hL))

/-- The loop of a decoder. -/
theorem recoverLoop_on (isa : Isa) {tbl : Vector UInt8 (n * k * 32)} (hk : 0 < k) (hx : Expanded tbl (err_num * k))
    (hd : Decodes ec tbl err_list) (hl : ValidList k n err_list) (hr : Recoverable ec (erased err_list))
    (hroom : Room ec mem matrix size) :
    forStep size ec.maxSize mem (recoverBlockOn isa ec tbl matrix err_list) =
      forStep size ec.maxSize mem (recoverBlock ec tbl matrix err_list) := by
  obtain ⟨L, hs, hL⟩ := hroom
  exact forStep_congr_inv (fun t => Strips t matrix L) hL hs fun off t hoff ht =>
    recoverBlockOn_eq hk hx hd hl hr ht hoff

end

/-! ## Programs -/

section
variable (ec : IsaEC k n) (mem : Mem)

/-- The object and the memory after a call. -/
def callOn (isa : Isa) : Op k n → Option (IsaEC k n × Mem)
  | .encode in_ out size => (encodeOn isa ec in_ out size mem).map fun r => (ec, r.1)
  | .encodePtr in_ out size => (encodePtrOn isa ec in_ out size mem).map fun r => (ec, r.1)
  | .decode matrix _ err_list size => (decodeOn isa ec matrix err_list size mem).map fun r => (r.1, r.2.1)
  | .decodePtr matrix _ err_list size => (decodePtrOn isa ec matrix err_list size mem).map fun r => (r.1, r.2.1)
  | .cacheGTbls _ err_list => (ec.cacheGTbls err_list).map fun r => (r.1, mem)
  | .cacheDecodePtr matrix _ err_list size =>
    (cacheDecodePtrOn isa ec matrix err_list size mem).map fun r => (ec, r.1)

end

/-- What is done to the memory before a call, and the call. -/
abbrev Turn (k n : Nat) := (Mem → Mem) × Op k n

def turn (t : Turn k n) (s : IsaEC k n × Mem) : Option (IsaEC k n × Mem) := call s.1 (t.1 s.2) t.2

def turnOn (isa : Isa) (t : Turn k n) (s : IsaEC k n × Mem) : Option (IsaEC k n × Mem) :=
  callOn s.1 (t.1 s.2) isa t.2

/-- What a call needs: disjoint strips with room for its blocks, at most `n` strips
to recover, and for `cache_decode_ptr` the object that `cache_g_tbls` leaves. The
rounds of `encode` share an array, so they are those of `encodeOn` when one thread
runs them: there is one thread, or one round at most. -/
def Fits (ec : IsaEC k n) (mem : Mem) : Op k n → Prop
  | .encode in_ out size => (ec.thread_num = 1 ∨ toSize (toInt (size / k)) ≤ ec.maxSize) ∧
      Room ec mem (in_ ++ out) (toSize (toInt (size / k)))
  | .encodePtr in_ out size => Room ec mem (in_ ++ out) ((toInt (size / ec.maxSize)).toNat * ec.maxSize)
  | .decode matrix _ err_list size => ValidList k n err_list ∧ Room ec mem matrix (toSize (toInt (size / k)))
  | .decodePtr matrix _ err_list size => ValidList k n err_list ∧ Room ec mem matrix size
  | .cacheGTbls _ err_list => ValidList k n err_list
  | .cacheDecodePtr matrix _ err_list size =>
    ValidList k n err_list ∧ (∃ ec₀ : IsaEC k n, Sound ec₀ ∧ cacheGTbls ec₀ err_list = some (ec, true)) ∧
      Room ec mem matrix (toSize (toInt (size / k)))

/-- Every call of the program finds what it needs. -/
def Fitting : List (Turn k n) → IsaEC k n × Mem → Prop
  | [], _ => True
  | t :: w, s => Fits s.1 (t.1 s.2) t.2 ∧ ∀ s', turn t s = some s' → Fitting w s'

/-- What every method keeps of the object. -/
structure Usable (ec : IsaEC k n) : Prop where
  sound : Sound ec
  g_tbls : Expanded ec.g_tbls (n * k)

section
variable {ec ec' : IsaEC k n} {err_list : Vector UInt8 err_num}

theorem Fresh.usable {maxSize thread_num : Nat} (h : Fresh ec maxSize thread_num) : Usable ec := by
  refine ⟨h.sound, expanded_of_tables (f := fun x => cell ec.encode_matrix (k * k + x)) fun x hx => ?_⟩
  exact h.intact x hx

theorem Loaded.usable (h : Loaded ec ec' err_list) (hec : Usable ec) : Usable ec' :=
  ⟨h.toSameCode.sound hec.sound, hec.g_tbls.overwrite (f := fun x => cell ec'.decode_matrix (0 + x)) h.g_tbls⟩

theorem Loaded.expanded (h : Loaded ec ec' err_list) : Expanded ec'.g_tbls (err_num * k) :=
  expanded_of_tables (f := fun x => cell ec'.decode_matrix (0 + x)) fun x hx => by rw [h.g_tbls, if_pos hx]

/-- The tables in the cache. -/
theorem cacheGTbls_expanded (hec : Sound ec) (hl : ValidList k n err_list) (hr : Recoverable ec (erased err_list))
    (h : cacheGTbls ec err_list = some (ec', true)) :
    Decodes ec' ec'.g_tbls_decode err_list ∧ Expanded ec'.g_tbls_decode (err_num * k) := by
  obtain ⟨r, hr', hidx, hrows, ht⟩ := decodeTables_decodes hec hl hr ec.g_tbls_decode
  rw [cacheGTbls, hr'] at h
  cases h
  exact ⟨⟨hidx, hrows⟩, expanded_of_tables (f := fun x => cell r.1.decode_matrix (0 + x)) fun x hx => by
    rw [ht, if_pos hx]⟩

/-- One call. -/
theorem callOn_eq (isa : Isa) (hk : 0 < k) (hkn : k + n ≤ 256) {op : Op k n} {mem : Mem} (hs : Usable ec)
    (hf : Fits ec mem op) : callOn ec mem isa op = call ec mem op ∧ ∀ s', call ec mem op = some s' → Usable s'.1 := by
  cases op with
  | encode in_ out size =>
    rw [callOn, call, encodeOn_eq hk hs.g_tbls hf.2]
    refine ⟨rfl, fun s' h => ?_⟩
    obtain ⟨_, -, rfl⟩ := Option.map_eq_some_iff.1 h
    exact hs
  | encodePtr in_ out size =>
    rw [callOn, call, encodePtrOn_eq hk hs.g_tbls hf]
    refine ⟨rfl, fun s' h => ?_⟩
    obtain ⟨_, -, rfl⟩ := Option.map_eq_some_iff.1 h
    exact hs
  | decode matrix e l size =>
    obtain ⟨hl, hroom⟩ := hf
    have hr := hl.recoverable hkn hs.sound
    obtain ⟨ec', hload, h'⟩ := loadDecodeTables_spec hs.sound hl hr
    have hloop := recoverLoop_on isa hk h'.expanded h'.decodes hl (h'.toSameCode.recoverable hr)
      (hroom.of_maxSize h'.maxSize)
    unfold callOn call decodeOn decode
    simp only [hload, divSize_eq hk, Option.bind_eq_bind, Option.bind_some, hloop]
    refine ⟨trivial, fun s' h => ?_⟩
    obtain ⟨r, hr', rfl⟩ := Option.map_eq_some_iff.1 h
    obtain ⟨_, -, hr'⟩ := Option.bind_eq_some_iff.1 hr'
    cases hr'
    exact h'.usable hs
  | decodePtr matrix e l size =>
    obtain ⟨hl, hroom⟩ := hf
    have hr := hl.recoverable hkn hs.sound
    obtain ⟨ec', hload, h'⟩ := loadDecodeTables_spec hs.sound hl hr
    have hloop := recoverLoop_on isa hk h'.expanded h'.decodes hl (h'.toSameCode.recoverable hr)
      (hroom.of_maxSize h'.maxSize)
    unfold callOn call decodePtrOn decodePtr
    simp only [hload, Option.bind_eq_bind, Option.bind_some, hloop]
    refine ⟨trivial, fun s' h => ?_⟩
    obtain ⟨r, hr', rfl⟩ := Option.map_eq_some_iff.1 h
    obtain ⟨_, -, hr'⟩ := Option.bind_eq_some_iff.1 hr'
    cases hr'
    exact h'.usable hs
  | cacheGTbls e l =>
    obtain ⟨⟨ec', b⟩, hcache, -, h'⟩ := cacheGTbls_spec hs.sound hf (hf.recoverable hkn hs.sound)
    rw [callOn, call, hcache]
    refine ⟨rfl, fun s' h => ?_⟩
    cases h
    exact ⟨h'.toSameCode.sound hs.sound, by rw [h'.g_tbls]; exact hs.g_tbls⟩
  | cacheDecodePtr matrix e l size =>
    obtain ⟨hl, ⟨ec₀, hec₀, hcache⟩, hroom⟩ := hf
    obtain ⟨hd, hx⟩ := cacheGTbls_expanded hec₀ hl (hl.recoverable hkn hec₀) hcache
    have hloop := recoverLoop_on isa hk hx hd hl (hl.recoverable hkn hs.sound) hroom
    unfold callOn call cacheDecodePtrOn cacheDecodePtr
    simp only [divSize_eq hk, Option.bind_eq_bind, Option.bind_some, hloop]
    refine ⟨trivial, fun s' h => ?_⟩
    obtain ⟨_, -, rfl⟩ := Option.map_eq_some_iff.1 h
    exact hs

theorem turnOn_eq (isa : Isa) (hk : 0 < k) (hkn : k + n ≤ 256) {t : Turn k n} {s : IsaEC k n × Mem} (hs : Usable s.1)
    (hf : Fits s.1 (t.1 s.2) t.2) : turnOn isa t s = turn t s ∧ ∀ s', turn t s = some s' → Usable s'.1 :=
  callOn_eq isa hk hkn hs hf

theorem run_on (isa : Isa) (hk : 0 < k) (hkn : k + n ≤ 256) {w : List (Turn k n)} {s : IsaEC k n × Mem}
    (hs : Usable s.1) (hw : Fitting w s) : run (turnOn isa) w s = run turn w s := by
  induction w generalizing s with
  | nil => rw [run_nil, run_nil]
  | cons t w ih =>
    obtain ⟨he, hkeep⟩ := turnOn_eq isa hk hkn hs hw.1
    rw [run_cons, run_cons, he]
    cases ht : turn t s with
    | none => rw [Option.bind_eq_bind, Option.bind_none, Option.bind_none]
    | some s' =>
      rw [Option.bind_eq_bind, Option.bind_some, Option.bind_some]
      exact ih (hkeep s' ht) (hw.2 s' ht)

end

end ErasureCode.IsaEC
