import ErasureCode.IsaEC.Calls

/-!
# The paths agree

With the rounds of each loop in order, `encode` does what `encode_ptr` does, and
`decode`, `decode_ptr` and `cache_g_tbls` followed by `cache_decode_ptr` leave
the same strips, whatever the object has been through (`paths_agree`).
`encode_ptr` and `decode_ptr` take the size of a strip, the others that of all
`k` strips; below 2^31 bytes the bounds of the five loops count the same blocks.

The cached decoder has a table of its own. It is expanded from the same decode
matrix (`decodeTables_agree`), and no round reads past the rows expanded
(`recoverBlock_congr`).
-/
namespace ErasureCode.IsaEC

open ErasureCode.Core Isal

variable {k n err_num : Nat} {ec : IsaEC k n} {err_list : Vector UInt8 err_num}

/-- Whatever was in the two tables, the rows of the list are the same. -/
theorem decodeTables_agree (he : err_num ≤ n) {tbl tbl' : Vector UInt8 (n * k * 32)}
    {r r' : Scratch ((k + n) * k) (k + n) × Vector UInt8 (n * k * 32)}
    (h : decodeTables ec err_list tbl = some r) (h' : decodeTables ec err_list tbl' = some r') :
    r.1 = r'.1 ∧ ∀ x, x < err_num * k * 32 → cell r.2 x = cell r'.2 x := by
  have hrows : err_num * k ≤ (k + n) * k := Nat.mul_le_mul_right k (by omega)
  have htbl := table_le k he
  obtain ⟨p, hp, h⟩ := Option.bind_eq_some_iff.1 h
  obtain ⟨p', hp', h'⟩ := Option.bind_eq_some_iff.1 h'
  rw [hp] at hp'
  cases hp'
  obtain ⟨t, ht, h⟩ := Option.bind_eq_some_iff.1 h
  obtain ⟨t', ht', h'⟩ := Option.bind_eq_some_iff.1 h'
  cases h
  cases h'
  refine ⟨rfl, fun x hx => ?_⟩
  rw [(ecInitTables_spec (by omega) htbl).of_eq ht, (ecInitTables_spec (by omega) htbl).of_eq ht', if_pos hx,
    if_pos hx]

/-- A round looks at `decode_index`, the block size and the rows of the list. -/
theorem recoverBlock_congr (he : err_num ≤ n) {ec' : IsaEC k n} {tbl tbl' : Vector UInt8 (n * k * 32)}
    (hidx : ec.decode_index = ec'.decode_index) (hmax : ec.maxSize = ec'.maxSize)
    (h : ∀ x, x < err_num * k * 32 → cell tbl x = cell tbl' x) (matrix : Vector Ptr (k + n)) (off : Nat) (mem : Mem) :
    recoverBlock ec tbl matrix err_list off mem = recoverBlock ec' tbl' matrix err_list off mem := by
  have htbl := table_le k he
  unfold recoverBlock
  rw [hidx, hmax]
  exact bind_congr fun _ => bind_congr fun _ => ecEncodeData_congrTable htbl htbl h mem

section
variable {matrix : Vector Ptr (k + n)} {mem : Mem} {size : Nat}

theorem cacheDecodePtr_eq_decodePtr (hk : 0 < k) (hM : 0 < ec.maxSize) (he : err_num ≤ n) (hlt : size < 2 ^ 31)
    {ec₁ ec₂ : IsaEC k n} {r : Bool} (hload : loadDecodeTables ec err_list = some ec₁)
    (hcache : cacheGTbls ec err_list = some (ec₂, r)) :
    cacheDecodePtr ec₂ matrix err_list (k * size) mem = (decodePtr ec matrix err_list size mem).map Prod.snd := by
  have hmax₁ := (loadDecodeTables_sameCode hload).maxSize
  have hmax₂ := (cacheGTbls_sameCode hcache).maxSize
  have hdiv : k * size / k = size := Nat.mul_div_cancel_left size hk
  rw [cacheDecodePtr_eq (by omega) hk (by rw [hdiv]; exact hlt), decodePtr_eq hload (by omega), hdiv, hmax₁, hmax₂,
    Option.map_map]
  obtain ⟨r₁, h₁, e₁⟩ := Option.bind_eq_some_iff.1 hload
  obtain ⟨r₂, h₂, e₂⟩ := Option.bind_eq_some_iff.1 hcache
  cases e₁
  cases e₂
  obtain ⟨hs, ht⟩ := decodeTables_agree he h₂ h₁
  refine congrArg (Option.map _) (forUp_congr fun b t _ _ => ?_)
  refine recoverBlock_congr he ?_ ?_ ht matrix _ t
  · exact congrArg (·.decode_index) hs
  · rfl

end

/-- **The vector, pointer and cached paths agree.** -/
theorem paths_agree {maxSize thread_num S : Nat} (hk : 0 < k) (hkn : k + n ≤ 256) (hM : 0 < maxSize)
    (hdvd : maxSize ∣ S) (hS : S < 2 ^ 31) :
    (∀ raw (ec : IsaEC k n), new raw maxSize thread_num = some ec → ∀ in_ out mem,
      encode ec in_ out (k * S) mem = encodePtr ec in_ out S mem ∧
      (Strips mem (in_ ++ out) S → (encodePtr ec in_ out S mem).isSome)) ∧
    ∀ ec : IsaEC k n, Reachable maxSize thread_num ec → ∀ err_num (err_list : Vector UInt8 err_num),
      ValidList k n err_list → ∃ ec₂, cacheGTbls ec err_list = some (ec₂, true) ∧ ∀ matrix mem,
        decode ec matrix err_list (k * S) mem = decodePtr ec matrix err_list S mem ∧
        cacheDecodePtr ec₂ matrix err_list (k * S) mem = (decodePtr ec matrix err_list S mem).map Prod.snd ∧
        (Strips mem matrix S → (decodePtr ec matrix err_list S mem).isSome) := by
  refine ⟨fun raw ec hnew in_ out mem => ?_, fun ec hreach err_num err_list hl => ?_⟩
  · have hmax := (new_fresh hnew).maxSize_eq
    subst hmax
    refine ⟨encode_eq_encodePtr ec hk hM hdvd hS, fun hs => ?_⟩
    obtain ⟨r, hr, -⟩ := encodePtr_mul ec hM hs hdvd hS
    rw [hr]
    rfl
  · obtain ⟨hec, hmax, -⟩ := hreach.sound
    subst hmax
    have hrec := hl.recoverable hkn hec
    obtain ⟨ec₁, ec₂, hload, -, hcache, -⟩ := tables_built hec hl hrec
    refine ⟨ec₂, hcache, fun matrix mem => ⟨decode_eq_decodePtr hk hS,
      cacheDecodePtr_eq_decodePtr hk hM hl.1 hS hload hcache, fun hs => ?_⟩⟩
    obtain ⟨r, hr, -⟩ := decodePtr_spec hec hM hl hrec hs hdvd
    rw [hr]
    rfl

/-- Two data strips and a parity strip, in two blocks; strip 0 is lost and reads 9. -/
theorem paths_agree_two : ∃ ec ec₂ : IsaEC 2 1, new default 2 4 = some ec ∧
    encode ec (ownBuffers 0 2) (ownBuffers 2 1) (2 * 4) #[#[1, 2, 3, 4], #[5, 6, 7, 8], #[0, 0, 0, 0]] =
      encodePtr ec (ownBuffers 0 2) (ownBuffers 2 1) 4 #[#[1, 2, 3, 4], #[5, 6, 7, 8], #[0, 0, 0, 0]] ∧
    (encodePtr ec (ownBuffers 0 2) (ownBuffers 2 1) 4 #[#[1, 2, 3, 4], #[5, 6, 7, 8], #[0, 0, 0, 0]]).isSome ∧
    cacheGTbls ec #v[0] = some (ec₂, true) ∧
    decode ec (ownBuffers 0 3) #v[0] (2 * 4) #[#[9, 9, 9, 9], #[5, 6, 7, 8], #[1, 1, 1, 1]] =
      decodePtr ec (ownBuffers 0 3) #v[0] 4 #[#[9, 9, 9, 9], #[5, 6, 7, 8], #[1, 1, 1, 1]] ∧
    cacheDecodePtr ec₂ (ownBuffers 0 3) #v[0] (2 * 4) #[#[9, 9, 9, 9], #[5, 6, 7, 8], #[1, 1, 1, 1]] =
      (decodePtr ec (ownBuffers 0 3) #v[0] 4 #[#[9, 9, 9, 9], #[5, 6, 7, 8], #[1, 1, 1, 1]]).map Prod.snd ∧
    (decodePtr ec (ownBuffers 0 3) #v[0] 4 #[#[9, 9, 9, 9], #[5, 6, 7, 8], #[1, 1, 1, 1]]).isSome := by
  obtain ⟨ec, hnew⟩ := new_isSome (default : IsaEC 2 1) 2 4 (by decide)
  obtain ⟨henc, hdec⟩ := @paths_agree 2 1 2 4 4 (by decide) (by decide) (by decide) (by decide) (by decide)
  obtain ⟨heq, hret⟩ := henc default ec hnew (ownBuffers 0 2) (ownBuffers 2 1)
    #[#[1, 2, 3, 4], #[5, 6, 7, 8], #[0, 0, 0, 0]]
  obtain ⟨ec₂, hcache, h⟩ := hdec ec ⟨default, ec, [], hnew, rfl⟩ 1 #v[0] ⟨by decide, by decide⟩
  obtain ⟨h1, h2, h3⟩ := h (ownBuffers 0 3) #[#[9, 9, 9, 9], #[5, 6, 7, 8], #[1, 1, 1, 1]]
  exact ⟨ec, ec₂, hnew, heq, hret (by decide), hcache, h1, h2, h3 (by decide)⟩

end ErasureCode.IsaEC
