import ErasureCode.IsaEC.Offsets

/-!
# The object's arrays are not left

An access outside an array is a fault in this model (`none`), and so is a scan
that runs off the end of `frag_in_err`. On a valid list the tables are built
without one: at most `n` of the `k + n` fragments are listed, so each round of
the scan meets another fragment before the end (`scansEnd_of_valid`).

`ec_encode_data` then reads its table and the pointer arrays only inside: the
decoders are loops over rounds that access the strips alone (`recoverRows`,
`recoverBlock_eq_rows`). `table_bounds` puts this together for every reachable
object.
-/
namespace ErasureCode.IsaEC

open ErasureCode.Core Isal

variable {k n err_num : Nat} {ec : IsaEC k n} {err_list : Vector UInt8 err_num}

/-! ## The scan -/

/-- `for (i = 0, r = 0; i < k; i++, r++) while (frag_in_err[r]) r++;`: each round
begins one after the end of the last, ends inside `frag_in_err`, and its end is
what `decode_index` gets, unchanged.
mirrors src/IsaEC.hpp:74-81 -/
structure ScansEnd (err_list : Vector UInt8 err_num) (frag_in_err : Vector UInt8 (k + n))
    (decode_index : Vector UInt8 (k + n)) (r : Nat → Nat) : Prop where
  filled : fragInErr err_list (k + n) = some frag_in_err
  ends : ∀ i, i < k → ScanEnds (fun r => (frag_in_err[r]?).map (· == 0)) (if i = 0 then 0 else r (i - 1) + 1) (r i)
  inside : ∀ i, i < k → r i < k + n
  stored : ∀ i, i < k → (cell decode_index i).toNat = r i

/-- A round that begins after `i` survivors ends at the next. -/
theorem skipErased_ends {m : Nat} {E : Finset Nat} {f : Vector UInt8 m} (hf : ∀ r, r < m → (cell f r = 0 ↔ r ∉ E))
    {i r : Nat} (hi : passed E r = i) (hs : survivor E i < m) :
    ScanEnds (fun r => (f[r]?).map (· == 0)) r (survivor E i) := by
  obtain ⟨r', hr', rfl, -⟩ := skipErased_spec hf hi hs
  exact scanEnds_of_scan hr' (by omega)

theorem scansEnd_of_valid (hl : ValidList k n err_list) {decode_index : Vector UInt8 (k + n)}
    (hidx : ∀ i, i < k → (cell decode_index i).toNat = survivor (erased err_list) i) :
    ∃ f, ScansEnd err_list f decode_index (survivor (erased err_list)) := by
  obtain ⟨f, hf, hcell⟩ := fragInErr_spec hl.2
  refine ⟨f, hf, fun i hi => ?_, fun i hi => survivor_lt hl.le_passed hi, hidx⟩
  refine skipErased_ends hcell ?_ (survivor_lt hl.le_passed hi)
  cases i with
  | zero => exact passed_zero
  | succ i => exact passed_survivor (erased err_list) i

/-! ## The rounds of the decoders -/

/-- A round on the strips that `decode_index` and the list name, with the
coefficients at hand: it accesses these strips, and nothing else. -/
def recoverRows (ec : IsaEC k n) (tbls : Vector UInt8 (n * k * 32)) (matrix : Vector Ptr (k + n))
    (err_list : Vector UInt8 err_num) (index : Nat) (mem : Mem) : Option Mem :=
  encodeRows ec.maxSize k err_num (coef tbls k) (fun j => (cell matrix (cell ec.decode_index j).toNat).add index)
    (fun l => (cell matrix (entry err_list l)).add index) mem

theorem recoverBlock_eq_rows (hl : ValidList k n err_list) {tbls : Vector UInt8 (n * k * 32)}
    (hd : Decodes ec tbls err_list) (matrix : Vector Ptr (k + n)) :
    recoverBlock ec tbls matrix err_list = recoverRows ec tbls matrix err_list := by
  funext index mem
  rw [recoverBlock_eq (fun j hj => hd.index_lt hl hj) hl.2]
  exact ecEncodeData_eq_rows (table_le k hl.1) (fun _ _ => rfl) (fun _ _ => rfl) mem

/-- The decoders, once the tables are built: what they access are the strips. -/
structure StripsOnly (ec ec₁ ec₂ : IsaEC k n) (err_list : Vector UInt8 err_num) : Prop where
  decode : ∀ matrix size mem, decode ec matrix err_list size mem =
    (forStep (totalLen k size) ec.maxSize mem (recoverRows ec₁ ec₁.g_tbls matrix err_list)).map fun m => (ec₁, m, true)
  decodePtr : ∀ matrix size mem, decodePtr ec matrix err_list size mem =
    (forStep size ec.maxSize mem (recoverRows ec₁ ec₁.g_tbls matrix err_list)).map fun m => (ec₁, m, true)
  cacheDecodePtr : ∀ matrix size mem, cacheDecodePtr ec₂ matrix err_list size mem =
    (forStep (totalLen k size) ec.maxSize mem (recoverRows ec₂ ec₂.g_tbls_decode matrix err_list)).map
      fun m => (m, true)

/-- **Table and index bounds.** From every reachable object and for every valid
list the tables are built without leaving an array, the scan ends inside
`frag_in_err` in each of its rounds, and the decoders look nowhere outside the
tables. -/
theorem table_bounds {maxSize thread_num : Nat} (hk : 0 < k) (hkn : k + n ≤ 256)
    (hreach : Reachable maxSize thread_num ec) (hl : ValidList k n err_list) :
    ∃ ec₁ ec₂, loadDecodeTables ec err_list = some ec₁ ∧ cacheGTbls ec err_list = some (ec₂, true) ∧
      (∃ f r, ScansEnd err_list f ec₁.decode_index r ∧ ScansEnd err_list f ec₂.decode_index r) ∧
      (∀ l, l < err_num → ∀ j, j < k → j * 32 + l * k * 32 + 1 < n * k * 32) ∧
      StripsOnly ec ec₁ ec₂ err_list := by
  obtain ⟨hec, -, -⟩ := hreach.sound
  have hrec := hl.recoverable hkn hec
  obtain ⟨ec₁, ec₂, hload, h₁, hcache, h₂⟩ := tables_built hec hl hrec
  obtain ⟨f, hscan₁⟩ := scansEnd_of_valid hl h₁.decodes.index
  have hrows₁ := recoverBlock_eq_rows hl h₁.decodes
  have hrows₂ := recoverBlock_eq_rows hl h₂.decodes
  have hptr : ∀ matrix size mem, decodePtr ec matrix err_list size mem =
      (forStep size ec.maxSize mem (recoverRows ec₁ ec₁.g_tbls matrix err_list)).map fun m => (ec₁, m, true) := by
    intro matrix size mem
    rw [decodePtr, hload, Option.bind_eq_bind, Option.bind_some, hrows₁, h₁.maxSize, Option.map_eq_bind]
    rfl
  refine ⟨ec₁, ec₂, hload, hcache, ⟨f, _, hscan₁, hscan₁.filled, hscan₁.ends, hscan₁.inside, h₂.decodes.index⟩,
    fun l hle j hj => coef_lt (table_le k hl.1) hle hj, fun matrix size mem => ?_, hptr, fun matrix size mem => ?_⟩
  · rw [decode_eq hk]
    exact hptr matrix _ mem
  · rw [cacheDecodePtr_forStep ec₂ hk, hrows₂, h₂.maxSize]

/-- One data strip, listed twice among two that may be lost. -/
theorem table_bounds_one : ∃ ec ec₁ ec₂ : IsaEC 1 2, new default 1 4 = some ec ∧
    loadDecodeTables ec #v[0, 0] = some ec₁ ∧ cacheGTbls ec #v[0, 0] = some (ec₂, true) ∧
    (∃ f r, ScansEnd #v[0, 0] f ec₁.decode_index r ∧ ScansEnd #v[0, 0] f ec₂.decode_index r) ∧
    (∀ l, l < 2 → ∀ j, j < 1 → j * 32 + l * 1 * 32 + 1 < 2 * 1 * 32) ∧ StripsOnly ec ec₁ ec₂ #v[0, 0] := by
  obtain ⟨ec, hnew⟩ := new_isSome (default : IsaEC 1 2) 1 4 (by decide)
  obtain ⟨ec₁, ec₂, h⟩ := @table_bounds 1 2 2 ec #v[0, 0] 1 4 (by decide) (by decide) ⟨default, ec, [], hnew, rfl⟩
    ⟨by decide, by decide⟩
  exact ⟨ec, ec₁, ec₂, hnew, h⟩

end ErasureCode.IsaEC
