import ErasureCode.IsaEC.PartialBlocks
import ErasureCode.Tests.Buffers

/-!
# The round-trip programs

`strip_wise.cpp` encodes strips that hold anything, copies all `k + n` of them,
overwrites the copies of the strips it lists at random, decodes, and compares each
listed copy with its original. `testEC.cpp` does the same with vectors and one thread.
Both have the object on the stack, so what `main` returns is not the status of the
process (`Ending`).

* `stripWise_eq`: whatever `rand` gives, `strip_wise.cpp` reaches its last line when
  `maxSize` divides the strip length and the offsets of the blocks fit an `int`, and runs
  into undefined behaviour when not. Its own strips of 2^31 bytes in blocks of 2^12 are
  the longest for which it gets there.
* `testEC_eq`: `testEC.cpp` compares with `in` only, so it reaches its last line when no
  parity strip is listed, and reads past the end of `in` when one is.
-/
namespace ErasureCode.Tests

open ErasureCode.Core Isal IsaEC Matrix

variable {k n len : Nat}

/-! ## The programs -/

/-- How a program ends: with the value of the `return` that `main` reaches, and with the
status of the process. -/
structure Ending where
  returned : Int
  status : Nat
  deriving DecidableEq, Repr

/-- On the way out of `main` the object is destroyed, and `~IsaEC` calls `exit(0)`.
mirrors src/IsaEC.cpp:49-51 -/
def leave (returned : Int) : Ending := ⟨returned, 0⟩

/-- The last comparison. -/
def exitCode (same : Bool) : Ending := if same then leave 0 else leave (-1)

/-- A `size_t` as the constructor's `int maxSize_`; the object has no negative one. -/
def intArg (maxSize : Nat) : Nat := (toInt maxSize).toNat

/-- `(int)i` for each entry. -/
def entries {err_num : Nat} (err_list : Vector UInt8 err_num) : List Nat := (List.range err_num).map (entry err_list)

/-- Each listed copy is compared with its original.
mirrors test/strip_wise.cpp:163-179 -/
def checkStrips (in_ : Vector Ptr k) (out : Vector Ptr n) (matrix : Vector Ptr (k + n)) (err_list : Vector UInt8 n)
    (len : Nat) (mem : Mem) : Option Bool :=
  allSame (fun i => do memcmp mem (← matrix[i]?) (← strip in_ out i) len) (entries err_list)

/-- Each listed copy is compared with the vector of the same number in `in`.
mirrors test/testEC.cpp:114-125 -/
def checkVectors (in_ : Vector Ptr k) (matrix : Vector Ptr (k + n)) (err_list : Vector UInt8 n) (len : Nat) (mem : Mem) :
    Option Bool :=
  allSame (fun i => do memcmp mem (← matrix[i]?) (← in_[i]?) len) (entries err_list)

/-- `rand() % b` for each entry; `s` calls came before. -/
def randList (n b s : Nat) (rand : Nat → Nat) : Vector UInt8 n := Vector.ofFn fun i => UInt8.ofNat (rand (s + i) % b)

/-- The strips, before they are encoded.
mirrors test/strip_wise.cpp:70-105, test/para_ssd_read.cpp:69-91 -/
def stripWiseStrips (k n : Nat) (raw : Nat → Vector UInt8 len) (rand : Nat → Nat) :
    Option (Vector Ptr k × Vector Ptr n × Mem) := do
  let (in_, mem) ← allocStrips raw k #[]
  let (out, mem) ← allocStrips raw n mem
  let mem ← setStrips in_ rand len mem
  let mem ← setStrips out (fun _ => 0) len mem
  return (in_, out, mem)

/-- The listed copies are overwritten, decoded and compared.
mirrors test/strip_wise.cpp:123-181 -/
def decodeCopies (ec : IsaEC k n) (raw : Nat → Vector UInt8 len) (rand : Nat → Nat) (in_ : Vector Ptr k)
    (out : Vector Ptr n) (mem : Mem) : Option Ending := do
  let (matrix, mem) ← copyStrips raw in_ out mem
  let err_list := randList n (k + n) k rand
  let mem ← eraseStrips matrix err_list len mem
  let (_, mem, _) ← ec.decodePtr matrix err_list len mem
  return exitCode (← checkStrips in_ out matrix err_list len mem)

/-- `rand i` is the value of call `i` of `rand`, and `obj` what the memory for the object
holds.
mirrors test/strip_wise.cpp:59-183 -/
def stripWise (maxSize thread_num : Nat) (raw : Nat → Vector UInt8 len) (rand : Nat → Nat) (obj : IsaEC k n) :
    Option Ending := do
  let (in_, out, mem) ← stripWiseStrips k n raw rand
  let ec ← IsaEC.new obj (intArg maxSize) thread_num
  let mem ← forUp 0 5 mem fun _ mem => do return (← ec.encodePtr in_ out len mem).1
  decodeCopies ec raw rand in_ out mem

/-- The vectors are encoded and copied, and the listed copies overwritten, decoded and
compared.
mirrors test/testEC.cpp:67-125 -/
def vectorTest (maxSize len : Nat) (in_ : Vector Ptr k) (out : Vector Ptr n) (err_list : Vector UInt8 n)
    (obj : IsaEC k n) (mem : Mem) : Option Ending := do
  let ec ← IsaEC.new obj maxSize 1
  let (mem, _) ← ec.encode in_ out (k * len) mem
  let (matrix, mem) ← copyStrips (zeros len) in_ out mem
  let mem ← eraseStrips matrix err_list len mem
  let (_, mem, _) ← ec.decode matrix err_list (k * len) mem
  return exitCode (← checkVectors in_ matrix err_list len mem)

/-- `thread_num` is 1.
mirrors test/testEC.cpp:34-128 -/
def testEC (maxSize len : Nat) (rand : Nat → Nat) (obj : IsaEC k n) : Option Ending := do
  let (in_, mem) ← fillVectors (fun i j => UInt8.ofNat (rand (i * len + j) % 255)) len k #[]
  let (out, mem) ← fillVectors (fun _ _ => 255) len n mem
  vectorTest maxSize len in_ out (randList n (k + n) (k * len) rand) obj mem

/-! ## The lists -/

theorem entry_randList {b s i : Nat} {rand : Nat → Nat} (hb : 0 < b) (hb256 : b ≤ 256) (hi : i < n) :
    entry (randList n b s rand) i = rand (s + i) % b := by
  have hlt : rand (s + i) % b < 256 := Nat.lt_of_lt_of_le (Nat.mod_lt _ hb) hb256
  rw [entry, cell_eq_getElem _ hi, randList, Vector.getElem_ofFn, UInt8.toNat_ofNat', Nat.mod_eq_of_lt hlt]

theorem forall_mem_entries {err_num : Nat} {l : Vector UInt8 err_num} {P : Nat → Prop} :
    (∀ e ∈ entries l, P e) ↔ ∀ i, i < err_num → P (entry l i) := by
  simp [entries]

/-! ## What the steps leave behind -/

section
variable {ec : IsaEC k n} {mem : Mem} {b : Nat} {E : Nat → Prop} {d : Nat → Fin k → GF256} {err_list : Vector UInt8 n}

theorem ownBuffers_append (b : Nat) : ownBuffers b k ++ ownBuffers (b + k) n = ownBuffers b (k + n) :=
  buffer_ext fun i hi => by
    rw [cell_append _ _ hi, cell_ownBuffers hi]
    split
    · rename_i hk
      rw [cell_ownBuffers hk]
    · rw [cell_ownBuffers (by omega)]
      congr 1
      omega

/-- The first `k + n` buffers hold the words of the data `d`, and outside `E` so do the
`k + n` from `b` on. -/
structure Copied (ec : IsaEC k n) (mem : Mem) (len b : Nat) (E : Nat → Prop) (d : Nat → Fin k → GF256) : Prop where
  buffers : Buffers mem 0 (b + (k + n)) len
  apart : k + n ≤ b
  original : HoldsWord ec.gen mem (ownBuffers 0 (k + n)) len (fun _ => False) d
  copy : HoldsWord ec.gen mem (ownBuffers b (k + n)) len E d

theorem Copied.original_strips (h : Copied ec mem len b E d) : ExactStrips mem (ownBuffers 0 (k + n)) len :=
  h.buffers.exact (Nat.le_refl 0) (by omega)

theorem Copied.copy_strips (h : Copied ec mem len b E d) : ExactStrips mem (ownBuffers b (k + n)) len :=
  h.buffers.exact (Nat.zero_le b) (Nat.le_refl _)

/-- Writing to copies. -/
theorem Copied.rewritten {mem' : Mem} {F : Nat → Prop} {S : Nat → Prop} {val : Nat → Nat → UInt8}
    (h : Copied ec mem len b E d) (hw : Rewritten mem mem' (ownBuffers b (k + n)) S len val)
    (hcopy : HoldsWord ec.gen mem' (ownBuffers b (k + n)) len F d) : Copied ec mem' len b F d := by
  refine ⟨h.buffers.rewritten hw h.copy_strips.toStrips (Nat.le_refl len), h.apart, fun i hi _ p hp => ?_, hcopy⟩
  rw [word, rewritten_apart hw (by rw [Nat.zero_add]; exact h.apart) hi]
  exact h.original i hi id p hp

/-- All strips are copied. -/
theorem copyStrips_copied (raw : Nat → Vector UInt8 len) (hb : Buffers mem 0 b len) (hle : k + n ≤ b)
    (hw : HoldsWord ec.gen mem (ownBuffers 0 (k + n)) len (fun _ => False) d) :
    Returns (copyStrips raw (ownBuffers 0 k) (ownBuffers k n) mem) fun r => r.1 = ownBuffers b (k + n) ∧
      Copied ec r.2 len b (fun _ => False) d := by
  have hcopy := copyStrips_spec (k := k) (n := n) raw hb (Nat.le_refl 0) (by omega)
  rw [Nat.zero_add] at hcopy
  refine hcopy.mono fun r ⟨hv, hb', ha⟩ => ⟨hv, hb', hle, fun i hi _ p hp => ?_, fun i hi _ p hp => ?_⟩
  · rw [word, stripByte, byteAt, ha.load_old ((hb.exact (Nat.le_refl 0) (by omega)).valid i hi p hp)]
    exact hw i hi id p hp
  · have hnew := ha.stripByte (x := 0) (Nat.le_of_eq (Nat.zero_add _)) hi hp
    rw [hb.size, Nat.add_zero, Nat.zero_add] at hnew
    rw [word, hnew]
    exact hw i hi id p hp

/-- The listed copies are lost. -/
theorem Copied.erased (h : Copied ec mem len b (fun _ => False) d) (hl : ∀ i, i < n → entry err_list i < k + n) :
    Returns (eraseStrips (ownBuffers b (k + n)) err_list len mem) fun mem' =>
      Copied ec mem' len b (fun r => r ∈ IsaEC.erased err_list) d := by
  refine (eraseStrips_spec hl h.buffers (Nat.zero_le b) (Nat.le_refl _)).mono fun mem' hw =>
    h.rewritten hw fun i hi hE p hp => ?_
  rw [word, hw.stripByte_frame h.copy_strips.toStrips (Nat.le_refl _) hi hp fun h => hE h.1]
  exact h.copy i hi id p hp

/-- A decoder that puts the listed copies right. -/
theorem Copied.decoded {mem' : Mem} {E : Finset Nat} (h : Copied ec mem len b (fun r => r ∈ E) d) (hr : Recoverable ec E)
    (hw : Rewritten mem mem' (ownBuffers b (k + n)) (fun r => r ∈ E) len fun e p =>
      (ec.recovered E (word mem (ownBuffers b (k + n)) p) e).byte) : Copied ec mem' len b (fun _ => False) d :=
  h.rewritten hw (decode_holds hr h.copy_strips.toStrips h.copy hw)

/-- A copy that is right is the same as its original. -/
theorem Copied.memcmp (h : Copied ec mem len b (fun _ => False) d) {i : Nat} (hi : i < k + n) :
    Tests.memcmp mem (cell (ownBuffers b (k + n)) i) (cell (ownBuffers 0 (k + n)) i) len = some false := by
  obtain ⟨differ, hd, hiff⟩ := memcmp_spec (h.copy_strips.valid i hi) (h.original_strips.valid i hi)
  rw [hd, hiff.2 fun x hx => congrArg GF256.byte ((h.copy i hi id x hx).trans (h.original i hi id x hx).symm)]

/-- The check, on copies that are right. -/
theorem Copied.checkStrips (h : Copied ec mem len b (fun _ => False) d) (hl : ∀ i, i < n → entry err_list i < k + n) :
    Tests.checkStrips (ownBuffers 0 k) (ownBuffers k n) (ownBuffers b (k + n)) err_list len mem = some true := by
  have hsame : ∀ e ∈ entries err_list, Returns (do
      Tests.memcmp mem (← (ownBuffers b (k + n))[e]?) (← strip (ownBuffers 0 k) (ownBuffers k n) e) len)
      fun differ => differ = false ↔ True := by
    refine forall_mem_entries.2 fun i hi => ?_
    have hstrip := strip_eq (b := 0) (hl i hi)
    rw [Nat.zero_add] at hstrip
    rw [rd_eq _ (hl i hi), hstrip, Option.bind_eq_bind, Option.bind_some, Option.bind_some,
      h.memcmp (hl i hi)]
    exact returns_some (iff_of_true rfl trivial)
  obtain ⟨same, he, hiff⟩ := allSame_spec hsame
  rw [Tests.checkStrips, he, hiff.2 fun _ _ => trivial]

/-- The check on vectors, where the originals of parity strips are not at hand. -/
theorem Copied.checkVectors (h : Copied ec mem len b (fun _ => False) d) (hl : ∀ i, i < n → entry err_list i < k + n) :
    Tests.checkVectors (ownBuffers 0 k) (ownBuffers b (k + n)) err_list len mem =
      if ∀ i, i < n → entry err_list i < k then some true else none := by
  have hdata : ∀ i, i < k → (do Tests.memcmp mem (← (ownBuffers b (k + n))[i]?) (← (ownBuffers 0 k)[i]?) len) =
      some false := fun i hi => by
    have hcell : cell (ownBuffers 0 k) i = cell (ownBuffers 0 (k + n)) i := by
      rw [cell_ownBuffers hi, cell_ownBuffers (by omega)]
    rw [rd_eq _ (show i < k + n by omega), rd_eq _ hi, hcell]
    exact h.memcmp (by omega)
  have hparity : ∀ i, i < k + n → ¬ i < k →
      (do Tests.memcmp mem (← (ownBuffers b (k + n))[i]?) (← (ownBuffers 0 k)[i]?) len) = none := fun i hi hik => by
    rw [rd_eq _ hi, Vector.getElem?_eq_none (Nat.not_lt.1 hik)]
    rfl
  split
  · rename_i hall
    have hsame : ∀ e ∈ entries err_list, Returns (do
        Tests.memcmp mem (← (ownBuffers b (k + n))[e]?) (← (ownBuffers 0 k)[e]?) len) fun differ => differ = false ↔ True :=
      forall_mem_entries.2 fun i hi => by
        rw [hdata _ (hall i hi)]
        exact returns_some (iff_of_true rfl trivial)
    obtain ⟨same, he, hiff⟩ := allSame_spec hsame
    rw [Tests.checkVectors, he, hiff.2 fun _ _ => trivial]
  · rename_i hall
    obtain ⟨i, hi⟩ := Classical.not_forall.1 hall
    obtain ⟨hin, hik⟩ := Classical.not_imp.1 hi
    refine allSame_none (forall_mem_entries.2 fun j hj => ?_) (List.mem_map.2 ⟨i, List.mem_range.2 hin, rfl⟩)
      (hparity _ (hl i hin) hik)
    by_cases hjk : entry err_list j < k
    · exact .inl (hdata _ hjk)
    · exact .inr (hparity _ (hl j hj) hjk)

/-! ## Encoding -/

/-- The offsets of the blocks fit an `int` when the last one does. -/
theorem offsets_fit_iff {M : Nat} (hM : 0 < M) (hdvd : M ∣ len) :
    (∀ b, b < len / M → b * M < 2 ^ 31) ↔ len < 2 ^ 31 + M := by
  obtain ⟨B, rfl⟩ := hdvd
  rw [Nat.mul_div_cancel_left _ hM, Nat.mul_comm]
  constructor
  · intro h
    cases B with
    | zero => omega
    | succ B =>
      have := h B (Nat.lt_succ_self B)
      rw [Nat.succ_mul]
      omega
  · intro h b hb
    have := Nat.mul_le_mul_right M hb
    rw [Nat.succ_mul] at this
    omega

/-- A call of `encode_ptr` keeps the buffers. -/
theorem encodePtr_buffers (hB : len / ec.maxSize < 2 ^ 31) (hb : Buffers mem 0 (k + n) len) {r : Mem × Bool}
    (h : ec.encodePtr (ownBuffers 0 k) (ownBuffers k n) len mem = some r) : Buffers r.1 0 (k + n) len := by
  obtain ⟨hM, hint⟩ := encodePtr_fits ec h
  rw [toInt_eq hB, Int.toNat_natCast] at hint
  have hv := ownBuffers_append (k := k) (n := n) 0
  rw [Nat.zero_add] at hv
  have hs := (hb.exact (Nat.le_refl 0) (Nat.le_of_eq (Nat.zero_add _))).toStrips
  have hL := Nat.div_mul_le_self len ec.maxSize
  have hw := ((encodePtr_spec ec hM (hv ▸ hs) (by rw [toInt_eq hB, Int.toNat_natCast]) hL hint).of_eq h).2
  rw [hv] at hw
  exact hb.rewritten hw hs hL

/-- Strips that have been encoded, however often, hold the words of their data. -/
theorem encodes_spec {count : Nat} (hec : Sound ec) (hi : Intact ec) (hM : 0 < ec.maxSize) (hB : len / ec.maxSize < 2 ^ 31)
    (hb : Buffers mem 0 (k + n) len) (hc : 0 < count) (hdvd : ec.maxSize ∣ len) (hlen : len < 2 ^ 31 + ec.maxSize) :
    Returns (forUp 0 count mem fun _ mem => do
        return (← ec.encodePtr (ownBuffers 0 k) (ownBuffers k n) len mem).1) fun mem' => Buffers mem' 0 (k + n) len ∧
      HoldsWord ec.gen mem' (ownBuffers 0 (k + n)) len (fun _ => False) fun p j =>
        word mem (ownBuffers 0 (k + n)) p j := by
  have hv := ownBuffers_append (k := k) (n := n) 0
  rw [Nat.zero_add] at hv
  refine (Returns.forUp (fun i t => Buffers t 0 (k + n) len ∧
    (∀ j, j < k → ∀ p, p < len → word t (ownBuffers 0 (k + n)) p j = word mem (ownBuffers 0 (k + n)) p j) ∧
    (0 < i → HoldsWord ec.gen t (ownBuffers 0 (k + n)) len (fun _ => False) fun p j =>
      word mem (ownBuffers 0 (k + n)) p j)) (Nat.zero_le count) ⟨hb, fun _ _ _ _ => rfl, fun h => absurd h (Nat.lt_irrefl 0)⟩
    fun i t _ _ ⟨ht, hdata, _⟩ => ?_).mono fun t ⟨ht, _, hw⟩ => ⟨ht, hw hc⟩
  have hs := (ht.exact (Nat.le_refl 0) (Nat.le_of_eq (Nat.zero_add _))).toStrips
  rw [← hv] at hs
  refine (encodePtr_spec ec hM hs (by rw [toInt_eq hB, Int.toNat_natCast]) (Nat.div_mul_le_self len _)
    ((offsets_fit_iff hM hdvd).2 hlen)).bind fun r ⟨_, hw⟩ => ?_
  rw [Nat.div_mul_cancel hdvd] at hw
  have hword := encode_holds hec hi hs (Nat.le_refl _) hw
  have hb' := ht.rewritten hw hs (Nat.le_refl _)
  rw [hv] at hword
  have hsame : HoldsWord ec.gen r.1 (ownBuffers 0 (k + n)) len (fun _ => False) fun p j =>
      word mem (ownBuffers 0 (k + n)) p j := fun x hx hF p hp => by
    rw [hword x hx hF p hp]
    exact congrArg (ec.gen x ⬝ᵥ ·) (funext fun j => hdata j j.isLt p hp)
  refine returns_some ⟨hb', fun j hj p hp => ?_, fun _ => hsame⟩
  rw [hsame j (by omega) id p hp, gen_data hec hj]

end

/-! ## The programs reach their last line -/

theorem stripWiseStrips_spec (raw : Nat → Vector UInt8 len) (rand : Nat → Nat) :
    Returns (stripWiseStrips k n raw rand) fun r =>
      r.1 = ownBuffers 0 k ∧ r.2.1 = ownBuffers k n ∧ Buffers r.2.2 0 (k + n) len ∧
        ∀ l, l < n → ∀ p, p < len → stripByte r.2.2 (ownBuffers k n) l p = 0 := by
  unfold stripWiseStrips
  refine (allocStrips_spec raw (Buffers.init #[] len)).bind fun ⟨in_, mem⟩ ⟨hin, hb, _⟩ => ?_
  refine (allocStrips_spec raw hb).bind fun ⟨out, mem'⟩ ⟨hout, hb', _⟩ => ?_
  simp only [List.size_toArray, List.length_nil, Nat.zero_add] at hin hout hb'
  subst hin hout
  have hdata := hb'.exact (b := 0) (d := k) (Nat.le_refl 0) (by omega)
  refine (setStrips_spec rand hb' (Nat.le_refl 0) (by omega)).bind fun t ht => ?_
  have hbt := hb'.rewritten ht hdata.toStrips (Nat.le_refl len)
  have hparity := hbt.exact (Nat.zero_le k) (Nat.le_refl (k + n))
  refine (setStrips_spec _ hbt (Nat.zero_le k) (Nat.le_refl _)).bind fun t' ht' => returns_some ⟨rfl, rfl, ?_, ?_⟩
  · exact hbt.rewritten ht' hparity.toStrips (Nat.le_refl len)
  · exact fun l hl p hp => ht'.stripByte_set hl trivial hp

theorem randList_valid {b s : Nat} {rand : Nat → Nat} (hb : 0 < b) (hb256 : b ≤ 256) (hle : b ≤ k + n) :
    ValidList k n (randList n b s rand) :=
  ⟨Nat.le_refl n, fun i hi => by
    rw [entry_randList hb hb256 hi]
    exact Nat.lt_of_lt_of_le (Nat.mod_lt _ hb) hle⟩

section
variable {ec : IsaEC k n} {mem : Mem}

/-- Blocks that fill the strips: the listed copies are put right. -/
theorem decodeCopies_eq (hk : 0 < k) (hkn : k + n ≤ 256) (hec : Sound ec) (hM : 0 < ec.maxSize) (hdvd : ec.maxSize ∣ len)
    (hb : Buffers mem 0 (k + n) len) {d : Nat → Fin k → GF256}
    (hw : HoldsWord ec.gen mem (ownBuffers 0 (k + n)) len (fun _ => False) d) (raw : Nat → Vector UInt8 len)
    (rand : Nat → Nat) : decodeCopies ec raw rand (ownBuffers 0 k) (ownBuffers k n) mem = some ⟨0, 0⟩ := by
  have hvl : ValidList k n (randList n (k + n) k rand) := randList_valid (by omega) hkn (Nat.le_refl _)
  have hr := hvl.recoverable hkn hec
  obtain ⟨⟨matrix, mem₁⟩, hcopy, hmatrix, h₁⟩ := copyStrips_copied raw hb (Nat.le_refl _) hw
  dsimp only at hmatrix h₁
  subst hmatrix
  obtain ⟨mem₂, herase, h₂⟩ := h₁.erased hvl.2
  obtain ⟨⟨ec', mem₃, _⟩, hdec, -, -, hw₃⟩ := decodePtr_spec hec hM hvl hr h₂.copy_strips.toStrips hdvd
  have h₃ := h₂.decoded hr hw₃
  unfold decodeCopies
  simp only [hcopy, herase, hdec, h₃.checkStrips hvl.2, Option.bind_eq_bind, Option.bind_some]
  rfl

/-- Blocks that do not: the last one is decoded past the end. -/
theorem decodeCopies_none (hk : 0 < k) (hn : 0 < n) (hkn : k + n ≤ 256) (hec : Sound ec) (hM : 0 < ec.maxSize)
    (hdvd : ¬ ec.maxSize ∣ len) (hb : Buffers mem 0 (k + n) len) (raw : Nat → Vector UInt8 len) (rand : Nat → Nat) :
    decodeCopies ec raw rand (ownBuffers 0 k) (ownBuffers k n) mem = none := by
  have hvl : ValidList k n (randList n (k + n) k rand) := randList_valid (by omega) hkn (Nat.le_refl _)
  have hr := hvl.recoverable hkn hec
  have hcopy := copyStrips_spec (k := k) (n := n) raw hb (Nat.le_refl 0) (Nat.le_of_eq (Nat.zero_add _))
  rw [Nat.zero_add] at hcopy
  obtain ⟨⟨matrix, mem₁⟩, hcopy, hmatrix, hb₁, -⟩ := hcopy
  dsimp only at hmatrix hb₁
  subst hmatrix
  obtain ⟨mem₂, herase, hw₂⟩ := eraseStrips_spec hvl.2 hb₁ (Nat.zero_le _) (Nat.le_refl _)
  have hs₁ := hb₁.exact (b := k + n) (d := k + n) (Nat.zero_le _) (Nat.le_refl _)
  have hs₂ := (hb₁.rewritten hw₂ hs₁.toStrips (Nat.le_refl len)).exact (b := k + n) (d := k + n) (Nat.zero_le _)
    (Nat.le_refl _)
  have hnone : ec.decodePtr (ownBuffers (k + n) (k + n)) (randList n (k + n) k rand) len mem₂ = none := by
    rw [← Option.not_isSome_iff_eq_none, decodePtr_inside_iff hec hM hvl hn hr hs₂]
    exact hdvd
  unfold decodeCopies
  simp only [hcopy, herase, hnone, Option.bind_eq_bind, Option.bind_some]
  rfl

end

theorem intArg_eq {maxSize : Nat} (h : maxSize < 2 ^ 31) : intArg maxSize = maxSize := by
  rw [intArg, toInt_eq h, Int.toNat_natCast]

/-- **`strip_wise.cpp`.** Whatever `rand` gives and the allocated memory holds, it reaches
its `return 0` when the blocks fill the strips and the offset of the last fits an `int`;
else its behaviour is undefined before any `return`. -/
theorem stripWise_eq (hk : 0 < k) (hn : 0 < n) (hkn : k + n ≤ 256) {maxSize : Nat} (hM : 0 < maxSize)
    (hlt : maxSize < 2 ^ 31) (hB : len / maxSize < 2 ^ 31) (thread_num : Nat) (raw : Nat → Vector UInt8 len)
    (rand : Nat → Nat) (obj : IsaEC k n) :
    stripWise maxSize thread_num raw rand obj =
      if maxSize ∣ len ∧ len < 2 ^ 31 + maxSize then some ⟨0, 0⟩ else none := by
  obtain ⟨⟨in_, out, mem⟩, hstrips, hin, hout, hb, -⟩ := stripWiseStrips_spec (k := k) (n := n) raw rand
  dsimp only at hin hout hb
  subst hin hout
  obtain ⟨ec, hnew⟩ := new_isSome obj maxSize thread_num hkn
  have hf := new_fresh hnew
  obtain rfl := hf.maxSize_eq
  have hround := encodes_spec hf.sound hf.intact hM hB hb (show 0 < 5 by decide)
  unfold stripWise
  simp only [hstrips, intArg_eq hlt, hnew, Option.bind_eq_bind, Option.bind_some] at hround ⊢
  generalize henc : forUp 0 5 mem _ = encoded at hround ⊢
  cases encoded with
  | none =>
    have hno : ¬ (ec.maxSize ∣ len ∧ len < 2 ^ 31 + ec.maxSize) := fun ⟨hdvd, hlen⟩ => by
      obtain ⟨_, h, -⟩ := hround hdvd hlen
      cases h
    rw [if_neg hno]
    rfl
  | some mem₁ =>
    have hb₁ : Buffers mem₁ 0 (k + n) len := by
      refine forUp_inv (fun _ t => Buffers t 0 (k + n) len) (Nat.zero_le 5) hb (fun _ t t' _ _ ht h => ?_) henc
      obtain ⟨r, hr, h⟩ := Option.bind_eq_some_iff.1 h
      cases h
      exact encodePtr_buffers hB ht hr
    rw [Option.bind_some]
    by_cases hdvd : ec.maxSize ∣ len
    · have hlen : len < 2 ^ 31 + ec.maxSize := by
        rw [forUp_step (by decide)] at henc
        obtain ⟨_, h, -⟩ := Option.bind_eq_some_iff.1 henc
        obtain ⟨r, h, -⟩ := Option.bind_eq_some_iff.1 h
        obtain ⟨-, hint⟩ := encodePtr_fits ec h
        rw [toInt_eq hB, Int.toNat_natCast] at hint
        exact (offsets_fit_iff hM hdvd).1 hint
      obtain ⟨mem', h, -, hw⟩ := hround hdvd hlen
      cases h
      rw [decodeCopies_eq hk hkn hf.sound hM hdvd hb₁ hw, if_pos ⟨hdvd, hlen⟩]
    · rw [decodeCopies_none hk hn hkn hf.sound hM hdvd hb₁, if_neg fun h => hdvd h.1]

/-- Strips of three bytes: blocks of three fill them, blocks of two do not. -/
theorem stripWise_eq_three :
    stripWise 3 4 (fun _ => #v[7, 8, 9]) (fun x => 5 * x) (default : IsaEC 2 1) = some ⟨0, 0⟩ ∧
      stripWise 2 4 (fun _ => #v[7, 8, 9]) (fun x => 5 * x) (default : IsaEC 2 1) = none :=
  ⟨(stripWise_eq (by decide) (by decide) (by decide) (by decide) (by decide) (by decide) 4 (fun _ => #v[7, 8, 9]) (fun x => 5 * x)
      default).trans (if_pos (by decide)),
    (stripWise_eq (by decide) (by decide) (by decide) (by decide) (by decide) (by decide) 4 (fun _ => #v[7, 8, 9]) (fun x => 5 * x)
      default).trans (if_neg (by decide))⟩

section
variable {maxSize : Nat} {err_list : Vector UInt8 n} {mem : Mem}

/-- On vectors the originals of parity strips are not at hand. -/
theorem vectorTest_eq (hk : 0 < k) (hn : 0 < n) (hkn : k + n ≤ 256) (hM : 0 < maxSize) (hlen : len < 2 ^ 31)
    (obj : IsaEC k n) (hb : Buffers mem 0 (k + n) len) (hl : ∀ i, i < n → entry err_list i < k + n) :
    vectorTest maxSize len (ownBuffers 0 k) (ownBuffers k n) err_list obj mem =
      if maxSize ∣ len ∧ ∀ i, i < n → entry err_list i < k then some ⟨0, 0⟩ else none := by
  obtain ⟨ec, hnew⟩ := new_isSome obj maxSize 1 hkn
  have hf := new_fresh hnew
  obtain rfl := hf.maxSize_eq
  have hvl : ValidList k n err_list := ⟨Nat.le_refl n, hl⟩
  have hr := hvl.recoverable hkn hf.sound
  have hv := ownBuffers_append (k := k) (n := n) 0
  rw [Nat.zero_add] at hv
  have hs := hb.exact (b := 0) (d := k + n) (Nat.le_refl 0) (Nat.le_of_eq (Nat.zero_add _))
  rw [← hv] at hs
  unfold vectorTest
  rw [hnew, Option.bind_eq_bind, Option.bind_some]
  by_cases hdvd : ec.maxSize ∣ len
  · obtain ⟨⟨mem₁, t⟩, henc, -, hw₁⟩ := encode_mul ec hk hM hs.toStrips hdvd hlen
    have hb₁ := hb.rewritten hw₁ hs.toStrips (Nat.le_refl len)
    have hword := encode_holds hf.sound hf.intact hs.toStrips (Nat.le_refl len) hw₁
    rw [hv] at hword
    obtain ⟨⟨matrix, mem₂⟩, hcopy, hmatrix, h₂⟩ := copyStrips_copied (zeros len) hb₁ (Nat.le_refl _) hword
    dsimp only at hmatrix h₂
    subst hmatrix
    obtain ⟨mem₃, herase, h₃⟩ := h₂.erased hl
    obtain ⟨⟨ec', mem₄, _⟩, hdec, -, -, hw₄⟩ := decodePtr_spec hf.sound hM hvl hr h₃.copy_strips.toStrips hdvd
    have h₄ := h₃.decoded hr hw₄
    simp only [henc, hcopy, herase, decode_eq_decodePtr hk hlen, hdec, h₄.checkVectors hl, Option.bind_eq_bind,
      Option.bind_some]
    split
    · rename_i hall
      rw [if_pos ⟨hdvd, hall⟩]
      rfl
    · rename_i hall
      rw [if_neg fun h => hall h.2]
      rfl
  · have hnone : ec.encode (ownBuffers 0 k) (ownBuffers k n) (k * len) mem = none := by
      rw [← Option.not_isSome_iff_eq_none, encode_inside_iff hk hn hM hlen hs]
      exact hdvd
    rw [hnone, if_neg fun h => hdvd h.1]
    rfl

/-- **`testEC.cpp`.** It reaches its `return 0` when the blocks fill the strips and `rand`
lists no parity strip; else its behaviour is undefined before any `return`. -/
theorem testEC_eq (hk : 0 < k) (hn : 0 < n) (hkn : k + n ≤ 256) (hM : 0 < maxSize) (hlen : len < 2 ^ 31)
    (rand : Nat → Nat) (obj : IsaEC k n) :
    testEC maxSize len rand obj =
      if maxSize ∣ len ∧ ∀ i, i < n → rand (k * len + i) % (k + n) < k then some ⟨0, 0⟩ else none := by
  obtain ⟨⟨in_, mem⟩, hin, hv, hb⟩ :=
    fillVectors_spec (d := k) (fun i j => UInt8.ofNat (rand (i * len + j) % 255)) (Buffers.init #[] len)
  obtain ⟨⟨out, mem'⟩, hout, hv', hb'⟩ := fillVectors_spec (d := n) (fun _ _ => 255) hb
  simp only [List.size_toArray, List.length_nil, Nat.zero_add] at hv hv' hb'
  subst hv hv'
  have hentry := fun i (hi : i < n) => @entry_randList n (k + n) (k * len) i rand (by omega) hkn hi
  have hvl : ValidList k n (randList n (k + n) (k * len) rand) := randList_valid (by omega) hkn (Nat.le_refl _)
  unfold testEC
  simp only [hin, hout, Option.bind_eq_bind, Option.bind_some]
  rw [vectorTest_eq hk hn hkn hM hlen obj hb' hvl.2]
  have hiff : (∀ i, i < n → entry (randList n (k + n) (k * len) rand) i < k) ↔
      ∀ i, i < n → rand (k * len + i) % (k + n) < k :=
    forall_congr' fun i => forall_congr' fun hi => by rw [hentry i hi]
  simp only [hiff]

/-- One strip of three is listed: call 6 of `rand` gives a data strip, or the parity
strip. -/
theorem testEC_eq_three :
    testEC 3 3 (fun x => 5 * x) (default : IsaEC 2 1) = some ⟨0, 0⟩ ∧
      testEC 3 3 (fun x => 5 * x + 2) (default : IsaEC 2 1) = none :=
  ⟨(testEC_eq (by decide) (by decide) (by decide) (by decide) (by decide) (fun x => 5 * x) default).trans
      (if_pos (by decide)),
    (testEC_eq (by decide) (by decide) (by decide) (by decide) (by decide) (fun x => 5 * x + 2) default).trans
      (if_neg (by decide))⟩

end

end ErasureCode.Tests
