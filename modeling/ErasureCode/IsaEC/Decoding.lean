import ErasureCode.IsaEC.Encoding

/-!
# Decoders

`Decodes ec tbl l` says that the table `tbl` and `decode_index` belong to the
erasure list `l`: the sources are the `k` lowest unlisted strips, and row `i`
of the table computes strip `l[i]` from them. A decode loop on such a table
sets the listed strips to the symbols of the only codeword that agrees with
those survivors (`recoverBlocks_spec`).

`decodeTables_spec` says what the tables are after
`gf_gen_decode_matrix_simple` and `ec_init_tables`: they belong to the list when it
can be recovered from (`decodeTables_decodes`), and with at most 256 strips every
valid list can (`ValidList.recoverable`).
-/
namespace ErasureCode.IsaEC

open ErasureCode.Core Isal Matrix

variable {k n err_num : Nat}

/-- An erasure list the decoders are meant for. -/
def ValidList (k n : Nat) (err_list : Vector UInt8 err_num) : Prop :=
  err_num ≤ n ∧ ∀ i, i < err_num → entry err_list i < k + n

/-- The table and `decode_index` belong to the list. -/
structure Decodes (ec : IsaEC k n) (tbl : Vector UInt8 (n * k * 32)) (err_list : Vector UInt8 err_num) :
    Prop where
  index : ∀ i, i < k → (cell ec.decode_index i).toNat = survivor (erased err_list) i
  rows : DecodesRows ec.gen err_list (tableRows k tbl)

/-- The symbol at `e` of the word that agrees with `w` on the `k` lowest strips
outside `E`. -/
noncomputable def recovered (ec : IsaEC k n) (E : Finset Nat) (w : Nat → GF256) (e : Nat) : GF256 :=
  Mds.recover ec.gen (fun i : Fin k => survivor E i) w e

/-! ## Survivors of a valid list -/

theorem ValidList.le_passed {err_list : Vector UInt8 err_num} (h : ValidList k n err_list) :
    k ≤ passed (erased err_list) (k + n) := by
  have := erased_card_le err_list
  have := h.1
  exact Core.le_passed (by omega)

theorem survivor_lt {E : Finset Nat} (hE : k ≤ passed E (k + n)) {i : Nat} (hi : i < k) :
    survivor E i < k + n :=
  survivor_lt_iff.2 (by omega)

/-- The rows of a list fit in a table. -/
theorem table_le (k : Nat) (he : err_num ≤ n) : err_num * k * 32 ≤ n * k * 32 :=
  Nat.mul_le_mul_right 32 (Nat.mul_le_mul_right k he)

/-- `decode_index` names strips. -/
theorem Decodes.index_lt {ec : IsaEC k n} {tbl : Vector UInt8 (n * k * 32)} {err_list : Vector UInt8 err_num}
    (h : Decodes ec tbl err_list) (hl : ValidList k n err_list) {j : Nat} (hj : j < k) :
    (cell ec.decode_index j).toNat < k + n := by
  rw [h.index j hj]
  exact survivor_lt hl.le_passed hj

theorem survivorRows_sound {ec : IsaEC k n} (hec : Sound ec) {E : Finset Nat} (hE : k ≤ passed E (k + n)) :
    survivorRows ec.gen E = survivorRows (encodeMatrix k) E := by
  funext i
  exact hec _ (survivor_lt hE i.isLt)

/-- The tables can be built for the strips outside `E`: there are `k` of them
whose numbers fit a byte, and their rows are independent. -/
structure Recoverable (ec : IsaEC k n) (E : Finset Nat) : Prop where
  enough : k ≤ passed E (k + n)
  fits : k ≤ passed E 256
  unit : IsUnit (survivorRows ec.gen E)

/-- With at most 256 strips every valid list can be recovered from. -/
theorem ValidList.recoverable {err_list : Vector UInt8 err_num} (hl : ValidList k n err_list)
    (hkn : k + n ≤ 256) {ec : IsaEC k n} (hec : Sound ec) : Recoverable ec (erased err_list) := by
  have hlt : ∀ i, i < k → survivor (erased err_list) i < k + n := fun i hi => survivor_lt hl.le_passed hi
  refine ⟨hl.le_passed, Nat.le_trans hl.le_passed (passed_mono hkn), ?_⟩
  rw [survivorRows_sound hec hl.le_passed]
  exact encodeMatrix_isUnit (by omega) (fun i j h => Fin.ext (survivor_inj h)) fun i => by
    have := hlt i i.isLt
    omega

/-! ## The tables -/

theorem decodeTables_spec {ec : IsaEC k n} (hec : Sound ec) {err_list : Vector UInt8 err_num}
    (hl : ValidList k n err_list) (tbl : Vector UInt8 (n * k * 32)) :
    Returns (decodeTables ec err_list tbl) fun r =>
      (∀ i, i < k → cell r.1.decode_index i = UInt8.ofNat (survivor (erased err_list) i)) ∧
      (IsUnit (survivorRows ec.gen (erased err_list)) →
        DecodesRows ec.gen err_list (rowsOf k r.1.decode_matrix)) ∧
      ∀ x, cell r.2 x = if x < err_num * k * 32 then tableByte (cell r.1.decode_matrix (0 + x / 32)) (x % 32)
        else cell tbl x := by
  have hid : ∀ r, r < k → ∀ c : Fin k, rowsOf k ec.encode_matrix r c = if r = c then 1 else 0 := by
    intro r hr c
    rw [← gen, hec r (by omega), encodeMatrix, if_pos hr]
  have hrows : err_num * k ≤ (k + n) * k := Nat.mul_le_mul_right k (by have := hl.1; omega)
  unfold decodeTables
  refine (gfGenDecodeMatrixSimple_spec (Nat.le_refl _) (Nat.mul_le_mul_right k (Nat.le_add_right k n))
    hrows (Nat.le_add_right k n) hl.2 hl.le_passed hid).bind fun p h => ?_
  obtain ⟨hidx, hp⟩ := h
  refine (ecInitTables_spec (by omega) (table_le k hl.1)).bind fun tbl' ht => returns_some ⟨hidx, fun hu => ?_, ht⟩
  rcases hp with ⟨-, -, hd⟩ | ⟨-, hsing⟩
  · exact hd
  · exact absurd hu hsing

/-- The tables belong to the list. -/
theorem decodeTables_decodes {ec : IsaEC k n} (hec : Sound ec) {err_list : Vector UInt8 err_num}
    (hl : ValidList k n err_list) (hr : Recoverable ec (erased err_list)) (tbl : Vector UInt8 (n * k * 32)) :
    Returns (decodeTables ec err_list tbl) fun r =>
      (∀ i, i < k → (cell r.1.decode_index i).toNat = survivor (erased err_list) i) ∧
      DecodesRows ec.gen err_list (tableRows k r.2) ∧
      ∀ x, cell r.2 x = if x < err_num * k * 32 then tableByte (cell r.1.decode_matrix (0 + x / 32)) (x % 32)
        else cell tbl x := by
  refine (decodeTables_spec hec hl tbl).mono fun r ⟨hidx, hrows, ht⟩ => ⟨fun i hi => ?_, fun i hi => ?_, ht⟩
  · have : survivor (erased err_list) i < 256 := survivor_lt_iff.2 (Nat.lt_of_lt_of_le hi hr.fits)
    rw [hidx i hi, UInt8.toNat_ofNat', Nat.mod_eq_of_lt (by omega)]
  · have hrow : tableRows k r.2 i = rowsOf k r.1.decode_matrix i := by
      funext j
      rw [tableRows_init ht, if_pos hi, Nat.zero_add]
      rfl
    rw [hrow]
    exact hrows hr.unit i hi

/-! ## The loop -/

section
variable {matrix : Vector Ptr (k + n)} {err_list : Vector UInt8 err_num} {mem : Mem} {L B : Nat}

/-- One block of the decoders: from the strips of `decode_index` to the listed
strips. -/
def recoverWindow (ec : IsaEC k n) (tbl : Vector UInt8 (n * k * 32)) (matrix : Vector Ptr (k + n))
    (err_list : Vector UInt8 err_num) (off : Nat) (mem : Mem) : Option Mem :=
  window ec.maxSize k err_num tbl matrix (fun j => (cell ec.decode_index j).toNat) (entry err_list) off mem

theorem srcPtr_eq (matrix : Vector Ptr (k + n)) {ec : IsaEC k n} (hidx : ∀ j, j < k → (cell ec.decode_index j).toNat < k + n) (off : Nat) :
    ∀ j, j < k → (do stripPtr matrix off (← ec.decode_index[j]?)) =
      some ((cell matrix (cell ec.decode_index j).toNat).add off) := fun j hj => by
  rw [rd_eq _ (show j < k + n by omega)]
  exact stripPtr_eq matrix off (hidx j hj)

theorem destPtr_eq (matrix : Vector Ptr (k + n)) (hl : ∀ i, i < err_num → entry err_list i < k + n) (off : Nat) :
    ∀ i, i < err_num → (do stripPtr matrix off (← err_list[i]?)) =
      some ((cell matrix (entry err_list i)).add off) := fun i hi => by
  rw [rd_eq _ hi]
  exact stripPtr_eq matrix off (hl i hi)

theorem recoverBlock_eq {ec : IsaEC k n} (hidx : ∀ j, j < k → (cell ec.decode_index j).toNat < k + n)
    (hl : ∀ i, i < err_num → entry err_list i < k + n) (tbl : Vector UInt8 (n * k * 32)) (off : Nat) (mem : Mem) :
    recoverBlock ec tbl matrix err_list off mem = recoverWindow ec tbl matrix err_list off mem := by
  obtain ⟨a, ha, hslot⟩ := fillPtrs_spec (srcPtr_eq matrix hidx off)
  obtain ⟨a', ha', hslot'⟩ := fillPtrs_spec (destPtr_eq matrix hl off)
  unfold recoverBlock
  rw [ha, Option.bind_eq_bind, Option.bind_some, ha', Option.bind_eq_bind, Option.bind_some]
  exact ecEncodeData_congr hslot hslot' mem

/-- The sources are not listed. -/
theorem Decodes.index_ne {ec : IsaEC k n} {tbl : Vector UInt8 (n * k * 32)} (hd : Decodes ec tbl err_list) {i j : Nat}
    (hj : j < k) (hi : i < err_num) : (cell ec.decode_index j).toNat ≠ entry err_list i := fun e => by
  refine survivor_not_mem (erased err_list) j ?_
  rw [← hd.index j hj, e]
  exact mem_erased.2 ⟨i, hi, rfl⟩

/-- What row `i` of the table computes. -/
theorem Decodes.recovered_byte {ec : IsaEC k n} {tbl : Vector UInt8 (n * k * 32)} (hd : Decodes ec tbl err_list)
    (hr : Recoverable ec (erased err_list)) {i : Nat} (hi : i < err_num) (p : Nat) :
    (ec.recovered (erased err_list) (word mem matrix p) (entry err_list i)).byte =
      dotBytes k (coef tbl k i) fun j => stripByte mem matrix (cell ec.decode_index j).toNat p := by
  have hdot : (tableRows k tbl i ⬝ᵥ fun j : Fin k => word mem matrix p (survivor (erased err_list) j)) =
      ⟨dotBytes k (coef tbl k i) fun j => stripByte mem matrix (cell ec.decode_index j).toNat p⟩ := by
    rw [mk_dotBytes]
    refine Finset.sum_congr rfl fun j _ => ?_
    rw [hd.index j j.isLt]
    rfl
  rw [recovered, ← Mds.dot_eq_recover hr.unit (hd.rows i hi), hdot]

/-- `B` blocks of a decoder whose table belongs to the list. -/
theorem recoverBlocks_spec {ec : IsaEC k n} {tbl : Vector UInt8 (n * k * 32)} (hd : Decodes ec tbl err_list)
    (hl : ValidList k n err_list) (hr : Recoverable ec (erased err_list)) (hs : Strips mem matrix L)
    (hL : B * ec.maxSize ≤ L) :
    Returns (forUp 0 B mem fun b t => recoverBlock ec tbl matrix err_list (b * ec.maxSize) t) fun mem' =>
      Rewritten mem mem' matrix (fun r => r ∈ erased err_list) (B * ec.maxSize) fun e p =>
        (ec.recovered (erased err_list) (word mem matrix p) e).byte := by
  have hlt : ∀ j, j < k → (cell ec.decode_index j).toNat < k + n := fun j hj => hd.index_lt hl hj
  rw [forUp_congr fun b t _ _ => recoverBlock_eq hlt hl.2 tbl (b * ec.maxSize) t]
  refine (blocks_spec (fun e p => (ec.recovered (erased err_list) (word mem matrix p) e).byte) _ _ hs hlt
    hl.2 (fun j hj i hi e => ?_) (table_le k hl.1) hL
    fun i hi p _ => ?_).mono fun mem' h => h.congrSet fun r _ => mem_erased.symm
  · exact hd.index_ne hj hi e
  · exact hd.recovered_byte hr hi p

end

/-! ## The methods -/

/-- The parts of the object that no method changes. -/
structure SameCode (ec ec' : IsaEC k n) : Prop where
  encode_matrix : ec'.encode_matrix = ec.encode_matrix
  maxSize : ec'.maxSize = ec.maxSize
  thread_num : ec'.thread_num = ec.thread_num

/-- What `decode` and `decode_ptr` do to the object. -/
structure Loaded (ec ec' : IsaEC k n) (err_list : Vector UInt8 err_num) : Prop extends SameCode ec ec' where
  decodes : Decodes ec' ec'.g_tbls err_list
  g_tbls : ∀ x, cell ec'.g_tbls x =
    if x < err_num * k * 32 then tableByte (cell ec'.decode_matrix (0 + x / 32)) (x % 32) else cell ec.g_tbls x
  g_tbls_decode : ec'.g_tbls_decode = ec.g_tbls_decode

/-- What `cache_g_tbls` does to the object. -/
structure Cached (ec ec' : IsaEC k n) (err_list : Vector UInt8 err_num) : Prop extends SameCode ec ec' where
  decodes : Decodes ec' ec'.g_tbls_decode err_list
  g_tbls : ec'.g_tbls = ec.g_tbls

theorem SameCode.gen {ec ec' : IsaEC k n} (h : SameCode ec ec') : ec'.gen = ec.gen := by
  rw [IsaEC.gen, h.encode_matrix, IsaEC.gen]

theorem SameCode.sound {ec ec' : IsaEC k n} (h : SameCode ec ec') (hec : Sound ec) : Sound ec' := by
  rw [Sound, h.gen]
  exact hec

theorem SameCode.recoverable {ec ec' : IsaEC k n} (h : SameCode ec ec') {E : Finset Nat}
    (hr : Recoverable ec E) : Recoverable ec' E :=
  ⟨hr.enough, hr.fits, by rw [h.gen]; exact hr.unit⟩

theorem SameCode.recovered {ec ec' : IsaEC k n} (h : SameCode ec ec') : ec'.recovered = ec.recovered := by
  funext E w e
  rw [IsaEC.recovered, IsaEC.recovered, h.gen]

section
variable {ec : IsaEC k n} {matrix : Vector Ptr (k + n)} {err_list : Vector UInt8 err_num} {mem : Mem}
  {L size : Nat}

theorem loadDecodeTables_spec (hec : Sound ec) (hl : ValidList k n err_list)
    (hr : Recoverable ec (erased err_list)) :
    Returns (loadDecodeTables ec err_list) fun ec' => Loaded ec ec' err_list := by
  refine (decodeTables_decodes hec hl hr ec.g_tbls).bind fun r ⟨hidx, hrows, ht⟩ => returns_some ?_
  exact ⟨⟨rfl, rfl, rfl⟩, ⟨hidx, hrows⟩, ht, rfl⟩

theorem cacheGTbls_spec (hec : Sound ec) (hl : ValidList k n err_list)
    (hr : Recoverable ec (erased err_list)) :
    Returns (cacheGTbls ec err_list) fun r => r.2 = true ∧ Cached ec r.1 err_list := by
  refine (decodeTables_decodes hec hl hr ec.g_tbls_decode).bind fun r ⟨hidx, hrows, _⟩ =>
    returns_some ⟨rfl, ?_⟩
  exact ⟨⟨rfl, rfl, rfl⟩, ⟨hidx, hrows⟩, rfl⟩

/-- Both pairs of tables can be built. -/
theorem tables_built (hec : Sound ec) (hl : ValidList k n err_list) (hr : Recoverable ec (erased err_list)) :
    ∃ ec₁ ec₂, loadDecodeTables ec err_list = some ec₁ ∧ Loaded ec ec₁ err_list ∧
      cacheGTbls ec err_list = some (ec₂, true) ∧ Cached ec ec₂ err_list := by
  obtain ⟨ec₁, hload, h₁⟩ := loadDecodeTables_spec hec hl hr
  obtain ⟨⟨ec₂, b⟩, hcache, rfl, h₂⟩ := cacheGTbls_spec hec hl hr
  exact ⟨ec₁, ec₂, hload, h₁, hcache, h₂⟩

/-- The loop of `decode_ptr`, once the tables are loaded: as many windows as
cover `size` bytes. -/
theorem decodePtr_eq {ec' : IsaEC k n} (hload : loadDecodeTables ec err_list = some ec') (hM : 0 < ec'.maxSize) :
    decodePtr ec matrix err_list size mem =
      (forUp 0 ((size + ec'.maxSize - 1) / ec'.maxSize) mem fun b t =>
        recoverBlock ec' ec'.g_tbls matrix err_list (b * ec'.maxSize) t).map fun m => (ec', m, true) := by
  unfold decodePtr
  rw [hload, Option.bind_eq_bind, Option.bind_some, forStep_eq hM, Option.map_eq_bind]
  rfl

/-- The strips must have room for the last window. -/
theorem decodePtr_covers (hec : Sound ec) (hM : 0 < ec.maxSize) (hl : ValidList k n err_list)
    (hr : Recoverable ec (erased err_list)) (hs : Strips mem matrix L)
    (hL : (size + ec.maxSize - 1) / ec.maxSize * ec.maxSize ≤ L) :
    Returns (decodePtr ec matrix err_list size mem) fun r => r.2.2 = true ∧ Loaded ec r.1 err_list ∧
      Rewritten mem r.2.1 matrix (fun r => r ∈ erased err_list)
        ((size + ec.maxSize - 1) / ec.maxSize * ec.maxSize) fun e p =>
          (ec.recovered (erased err_list) (word mem matrix p) e).byte := by
  obtain ⟨ec', hload, h⟩ := loadDecodeTables_spec hec hl hr
  rw [← h.maxSize] at hM hL ⊢
  obtain ⟨mem', he, hw⟩ := recoverBlocks_spec h.decodes hl (h.toSameCode.recoverable hr) hs hL
  rw [decodePtr_eq hload hM, he, ← h.toSameCode.recovered]
  exact returns_some ⟨rfl, h, hw⟩

theorem decodePtr_spec (hec : Sound ec) (hM : 0 < ec.maxSize) (hl : ValidList k n err_list)
    (hr : Recoverable ec (erased err_list)) (hs : Strips mem matrix size) (hdvd : ec.maxSize ∣ size) :
    Returns (decodePtr ec matrix err_list size mem) fun r => r.2.2 = true ∧ Loaded ec r.1 err_list ∧
      Rewritten mem r.2.1 matrix (fun r => r ∈ erased err_list) size fun e p =>
        (ec.recovered (erased err_list) (word mem matrix p) e).byte := by
  obtain ⟨B, rfl⟩ := hdvd
  rw [Nat.mul_comm] at hs ⊢
  have h := decodePtr_covers hec hM hl hr hs (by rw [ceil_mul hM])
  rwa [ceil_mul hM] at h

/-- `decode` takes the size of all `k` strips, and its bound is an `int`. -/
theorem decode_eq (hk : 0 < k) :
    decode ec matrix err_list size mem = decodePtr ec matrix err_list (toSize (toInt (size / k))) mem := by
  unfold decode decodePtr
  rw [divSize_eq hk]
  rfl

theorem decode_eq_decodePtr (hk : 0 < k) (hlt : size < 2 ^ 31) :
    decode ec matrix err_list (k * size) mem = decodePtr ec matrix err_list size mem := by
  rw [decode_eq hk, Nat.mul_div_cancel_left _ hk, toInt_eq hlt, toSize_eq (by omega)]

/-- The cached decoder takes as many windows as cover `size / k` bytes. -/
theorem cacheDecodePtr_eq (hM : 0 < ec.maxSize) (hk : 0 < k) (hlt : size / k < 2 ^ 31) :
    cacheDecodePtr ec matrix err_list size mem =
      (forUp 0 ((size / k + ec.maxSize - 1) / ec.maxSize) mem fun b t =>
        recoverBlock ec ec.g_tbls_decode matrix err_list (b * ec.maxSize) t).map fun m => (m, true) := by
  unfold cacheDecodePtr
  rw [divSize_eq hk, Option.bind_eq_bind, Option.bind_some, toInt_eq hlt]
  simp only [toSize_eq (show size / k < 2 ^ 64 by omega), forStep_eq hM]
  rw [Option.map_eq_bind]
  rfl

theorem cacheDecodePtr_spec (hM : 0 < ec.maxSize) (hk : 0 < k) (hd : Decodes ec ec.g_tbls_decode err_list)
    (hl : ValidList k n err_list) (hr : Recoverable ec (erased err_list)) (hs : Strips mem matrix L)
    (hlt : size / k < 2 ^ 31) (hL : (size / k + ec.maxSize - 1) / ec.maxSize * ec.maxSize ≤ L) :
    Returns (cacheDecodePtr ec matrix err_list size mem) fun r => r.2 = true ∧
      Rewritten mem r.1 matrix (fun r => r ∈ erased err_list)
        ((size / k + ec.maxSize - 1) / ec.maxSize * ec.maxSize) fun e p =>
          (ec.recovered (erased err_list) (word mem matrix p) e).byte := by
  obtain ⟨mem', he, h⟩ := recoverBlocks_spec hd hl hr hs hL
  rw [cacheDecodePtr_eq hM hk hlt, he]
  exact returns_some ⟨rfl, h⟩

end

end ErasureCode.IsaEC
