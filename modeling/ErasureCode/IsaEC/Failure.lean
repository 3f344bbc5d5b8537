import ErasureCode.IsaEC.Recovery

/-!
# Lists that cannot be recovered from

`gf_gen_decode_matrix_simple` returns -1 when the surviving rows are singular.
`decode`, `decode_ptr` and `cache_g_tbls` ignore what it returns and return
`true` themselves (`src/IsaEC.cpp:132-135,165-168,195-200`).

`ReportsDecode` and `ReportsCache` say what a caller could expect of a method
that reports failure. `reports_iff`: the methods behave so exactly on the lists
of at most `n` entries that can be recovered from. On any other list they read
or write outside an array, or return `true` with tables that do not belong to
the list.
-/
namespace ErasureCode.IsaEC

open ErasureCode.Core Isal Matrix

variable {k n err_num : Nat}

/-- Fewer than `k` strips are left, or `gf_gen_decode_matrix_simple` returns -1. -/
def Unrecoverable (ec : IsaEC k n) (E : Finset Nat) : Prop :=
  passed E (k + n) < k ∨ ¬ IsUnit (survivorRows ec.gen E)

/-- `decode` or `decode_ptr` returns; `false`, with the strips of `L` bytes
untouched, when there is no recovery; and `true` only with the tables of the
list. -/
def ReportsDecode (ec : IsaEC k n) (matrix : Vector Ptr (k + n)) (err_list : Vector UInt8 err_num)
    (L : Nat) (mem : Mem) (o : Option (IsaEC k n × Mem × Bool)) : Prop :=
  Returns o fun r =>
    (Unrecoverable ec (erased err_list) →
      r.2.2 = false ∧ SameOutside mem r.2.1 matrix L fun _ => False) ∧
    (r.2.2 = true → Decodes r.1 r.1.g_tbls err_list)

/-- The same of `cache_g_tbls`, which touches no strip. -/
def ReportsCache (ec : IsaEC k n) (err_list : Vector UInt8 err_num) (o : Option (IsaEC k n × Bool)) : Prop :=
  Returns o fun r =>
    (Unrecoverable ec (erased err_list) → r.2 = false) ∧
    (r.2 = true → Decodes r.1 r.1.g_tbls_decode err_list)

theorem Recoverable.not_unrecoverable {ec : IsaEC k n} {E : Finset Nat} (h : Recoverable ec E) :
    ¬ Unrecoverable ec E := by
  rintro (hc | hc)
  · exact absurd h.enough (Nat.not_le.2 hc)
  · exact hc h.unit

/-- Tables that belong to a list that is not unrecoverable. -/
theorem Decodes.recoverable {ec ec' : IsaEC k n} {tbl : Vector UInt8 (n * k * 32)}
    {err_list : Vector UInt8 err_num} (h : Decodes ec' tbl err_list)
    (hu : ¬ Unrecoverable ec (erased err_list)) : Recoverable ec (erased err_list) := by
  rw [Unrecoverable, not_or, Nat.not_lt, not_not] at hu
  refine ⟨hu.1, ?_, hu.2⟩
  -- the largest survivor is stored in a byte
  rcases Nat.eq_zero_or_pos k with rfl | hk
  · exact Nat.zero_le _
  · have hlast : survivor (erased err_list) (k - 1) < 256 := by
      rw [← h.index (k - 1) (by omega)]
      exact UInt8.toNat_lt _
    have := survivor_lt_iff.1 hlast
    omega

/-- The table has room for `n` rows. -/
theorem decodeTables_le {ec : IsaEC k n} {err_list : Vector UInt8 err_num} {tbl : Vector UInt8 (n * k * 32)}
    {r : Scratch ((k + n) * k) (k + n) × Vector UInt8 (n * k * 32)} (hk : 0 < k)
    (h : decodeTables ec err_list tbl = some r) : err_num ≤ n := by
  obtain ⟨p, _, h⟩ := Option.bind_eq_some_iff.1 h
  obtain ⟨t, ht, _⟩ := Option.bind_eq_some_iff.1 h
  by_contra hc
  have : n * k < err_num * k := Nat.mul_lt_mul_of_pos_right (Nat.lt_of_not_le hc) hk
  rw [ecInitTables_fault hk (by omega)] at ht
  cases ht

section
variable {ec : IsaEC k n} {matrix : Vector Ptr (k + n)} {err_list : Vector UInt8 err_num} {mem : Mem}
  {L size : Nat}

theorem decodePtr_returns {r : IsaEC k n × Mem × Bool} (hk : 0 < k)
    (h : decodePtr ec matrix err_list size mem = some r) : r.2.2 = true ∧ err_num ≤ n := by
  obtain ⟨ec', hl, h⟩ := Option.bind_eq_some_iff.1 h
  obtain ⟨_, _, h⟩ := Option.bind_eq_some_iff.1 h
  obtain ⟨_, ht, _⟩ := Option.bind_eq_some_iff.1 hl
  cases h
  exact ⟨rfl, decodeTables_le hk ht⟩

theorem cacheGTbls_returns {r : IsaEC k n × Bool} (hk : 0 < k) (h : cacheGTbls ec err_list = some r) :
    r.2 = true ∧ err_num ≤ n := by
  obtain ⟨_, ht, h⟩ := Option.bind_eq_some_iff.1 h
  cases h
  exact ⟨rfl, decodeTables_le hk ht⟩

theorem reportsDecode_iff (hec : Sound ec) (hk : 0 < k) (hM : 0 < ec.maxSize)
    (hl : ∀ i, i < err_num → entry err_list i < k + n) (hs : Strips mem matrix L)
    (hL : (size + ec.maxSize - 1) / ec.maxSize * ec.maxSize ≤ L) :
    ReportsDecode ec matrix err_list L mem (decodePtr ec matrix err_list size mem) ↔
      err_num ≤ n ∧ Recoverable ec (erased err_list) := by
  constructor
  · rintro ⟨r, hr, hfalse, htrue⟩
    obtain ⟨ht, hn⟩ := decodePtr_returns hk hr
    refine ⟨hn, (htrue ht).recoverable fun hu => ?_⟩
    rw [ht] at hfalse
    exact absurd (hfalse hu).1 (by decide)
  · rintro ⟨hn, hr⟩
    exact (decodePtr_covers hec hM ⟨hn, hl⟩ hr hs hL).mono fun r ⟨_, hload, _⟩ =>
      ⟨fun hu => absurd hu hr.not_unrecoverable, fun _ => hload.decodes⟩

theorem reportsCache_iff (hec : Sound ec) (hk : 0 < k) (hl : ∀ i, i < err_num → entry err_list i < k + n) :
    ReportsCache ec err_list (cacheGTbls ec err_list) ↔ err_num ≤ n ∧ Recoverable ec (erased err_list) := by
  constructor
  · rintro ⟨r, hr, hfalse, htrue⟩
    obtain ⟨ht, hn⟩ := cacheGTbls_returns hk hr
    refine ⟨hn, (htrue ht).recoverable fun hu => ?_⟩
    rw [ht] at hfalse
    exact absurd (hfalse hu) (by decide)
  · rintro ⟨hn, hr⟩
    exact (cacheGTbls_spec hec ⟨hn, hl⟩ hr).mono fun r ⟨_, hca⟩ =>
      ⟨fun hu => absurd hu hr.not_unrecoverable, fun _ => hca.decodes⟩

/-- From any reachable object, the three methods report what they cannot do
exactly on lists of at most `n` entries that can be recovered from: on these
there is nothing to report. The strips have room for the blocks that cover the
bound of the loop. -/
theorem reports_iff {maxSize thread_num : Nat} (hreach : Reachable maxSize thread_num ec) (hk : 0 < k)
    (hM : 0 < maxSize) (hl : ∀ i, i < err_num → entry err_list i < k + n) (hs : Strips mem matrix L) :
    (∀ size, (toSize (toInt (size / k)) + maxSize - 1) / maxSize * maxSize ≤ L →
      (ReportsDecode ec matrix err_list L mem (decode ec matrix err_list size mem) ↔
        err_num ≤ n ∧ Recoverable ec (erased err_list))) ∧
    (∀ size, (size + maxSize - 1) / maxSize * maxSize ≤ L →
      (ReportsDecode ec matrix err_list L mem (decodePtr ec matrix err_list size mem) ↔
        err_num ≤ n ∧ Recoverable ec (erased err_list))) ∧
    (ReportsCache ec err_list (cacheGTbls ec err_list) ↔
      err_num ≤ n ∧ Recoverable ec (erased err_list)) := by
  obtain ⟨hec, rfl, -⟩ := hreach.sound
  refine ⟨fun size hL => ?_, fun size hL => reportsDecode_iff hec hk hM hl hs hL, reportsCache_iff hec hk hl⟩
  rw [decode_eq hk]
  exact reportsDecode_iff hec hk hM hl hs hL

end

theorem reports_iff_one : ∃ ec : IsaEC 1 1, Reachable 1 4 ec ∧
    (ReportsDecode ec (ownBuffers 0 2) #v[0] 1 #[#[5], #[7]] (decode ec (ownBuffers 0 2) #v[0] 1 #[#[5], #[7]]) ↔
      1 ≤ 1 ∧ Recoverable ec (erased #v[0])) ∧
    (ReportsDecode ec (ownBuffers 0 2) #v[0] 1 #[#[5], #[7]] (decodePtr ec (ownBuffers 0 2) #v[0] 1 #[#[5], #[7]]) ↔
      1 ≤ 1 ∧ Recoverable ec (erased #v[0])) ∧
    (ReportsCache ec #v[0] (cacheGTbls ec #v[0]) ↔ 1 ≤ 1 ∧ Recoverable ec (erased #v[0])) := by
  obtain ⟨ec, h⟩ := new_isSome (default : IsaEC 1 1) 1 4 (by decide)
  obtain ⟨h1, h2, h3⟩ := reports_iff (new_reachable h) (by decide) (by decide) (by decide : ∀ i, i < 1 → entry #v[0] i < 1 + 1)
    (by decide : Strips #[#[5], #[7]] (ownBuffers 0 2) 1)
  exact ⟨ec, new_reachable h, h1 1 (by decide), h2 1 (by decide), h3⟩

/-! ## A singular list -/

/-- All strips of one data and 256 parity strips but the last. -/
def allButLast : Vector UInt8 256 := Vector.ofFn fun i => UInt8.ofNat i

theorem entry_allButLast {i : Nat} (hi : i < 256) : entry allButLast i = i := by
  rw [entry, cell_eq_getElem _ hi, allButLast, Vector.getElem_ofFn]
  simp only [UInt8.toNat_ofNat']
  omega

theorem mem_erased_allButLast {r : Nat} : r ∈ erased allButLast ↔ r < 256 := by
  rw [mem_erased]
  constructor
  · rintro ⟨i, hi, rfl⟩
    rwa [entry_allButLast hi]
  · exact fun h => ⟨r, h, entry_allButLast h⟩

/-- The last row is `gf_inv` of the low byte of `256 ^ 0`, and so 0. -/
theorem allButLast_singular {ec : IsaEC 1 256} (hec : Sound ec) :
    ¬ IsUnit (survivorRows ec.gen (erased allButLast)) := by
  have hlast : survivor (erased allButLast) 0 = 256 :=
    (survivor_next passed_zero (Nat.zero_le 256) (fun j _ hj => mem_erased_allButLast.2 hj)
      (by rw [mem_erased_allButLast]; omega)).1
  have hzero : survivorRows ec.gen (erased allButLast) = 0 := by
    funext i j
    show ec.gen (survivor (erased allButLast) i) j = 0
    rw [show (i : Nat) = 0 by omega, hlast, hec 256 (by decide)]
    obtain rfl : j = 0 := Subsingleton.elim _ _
    decide
  rw [hzero]
  exact not_isUnit_zero

/-- `cache_g_tbls` returns `true` on it, and so none of the three reports. -/
theorem allButLast_not_reported : ∃ ec : IsaEC 1 256, Reachable 1 4 ec ∧
    Unrecoverable ec (erased allButLast) ∧ (∃ ec', cacheGTbls ec allButLast = some (ec', true)) ∧
    ¬ ReportsCache ec allButLast (cacheGTbls ec allButLast) ∧
    ∀ matrix size mem, ¬ ReportsDecode ec matrix allButLast size mem (decodePtr ec matrix allButLast size mem) := by
  obtain ⟨ec, h, hf⟩ := new_spec (default : IsaEC 1 256) 1 4 (by decide) (by decide)
  have hsing := allButLast_singular hf.sound
  have hl : ValidList 1 256 allButLast := ⟨by decide, fun i hi => by rw [entry_allButLast hi]; omega⟩
  refine ⟨ec, new_reachable h, .inr hsing, ?_, fun hc => ?_, fun matrix size mem hc => ?_⟩
  · obtain ⟨r, hr, _⟩ := decodeTables_spec hf.sound hl ec.g_tbls_decode
    exact ⟨_, by rw [cacheGTbls, hr]; rfl⟩
  · obtain ⟨r, hr, hfalse, _⟩ := hc
    have := hfalse (.inr hsing)
    rw [(cacheGTbls_returns (by decide) hr).1] at this
    exact absurd this (by decide)
  · obtain ⟨r, hr, hfalse, _⟩ := hc
    have := (hfalse (.inr hsing)).1
    rw [(decodePtr_returns (by decide) hr).1] at this
    exact absurd this (by decide)

end ErasureCode.IsaEC
