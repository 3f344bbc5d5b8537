import ErasureCode.IsaEC.Calls

/-!
# Recovery

`HoldsWord G mem v len E d`: outside `E`, the strips `v` hold the codewords of
the data `d`, one codeword for each of the first `len` positions. After
`encode_ptr` on a new object they do, with no strip excepted (`encode_holds`),
and what the decoders compute for a strip in `E` is its symbol
(`recovered_word`).

* `encode_erase_decode`: the round trip through `encode_ptr` and `decode_ptr`.
* `decodePtr_solves`: what `decode_ptr` does to any strips, whatever the
  object has been used for before.
* `cached_restores_iff`: the round trip through `cache_decode_ptr` when it is
  passed the strip length. That method divides its argument by `k`, so it
  leaves the end of the strips alone unless there is one strip or one block.
-/
namespace ErasureCode.IsaEC

open ErasureCode.Core Isal Matrix

variable {k n : Nat}

/-- Outside `E` the strips hold the word of `d p` at position `p`. -/
def HoldsWord {c : Nat} (G : Matrix Nat (Fin k) GF256) (mem : Mem) (v : Vector Ptr c) (len : Nat)
    (E : Nat → Prop) (d : Nat → Fin k → GF256) : Prop :=
  ∀ r, r < c → ¬ E r → ∀ p, p < len → word mem v p r = G r ⬝ᵥ d p

/-- The strips outside `E` are as they were. -/
def SameOutside {c : Nat} (mem mem' : Mem) (v : Vector Ptr c) (len : Nat) (E : Nat → Prop) : Prop :=
  ∀ r, r < c → ¬ E r → ∀ p, p < len → stripByte mem' v r p = stripByte mem v r p

section
variable {ec : IsaEC k n} {in_ : Vector Ptr k} {out : Vector Ptr n} {matrix : Vector Ptr (k + n)}
  {mem mem' : Mem} {L len size : Nat} {E : Finset Nat} {d : Nat → Fin k → GF256}

theorem HoldsWord.congr {v : Vector Ptr (k + n)} {F : Nat → Prop} (h : HoldsWord ec.gen mem v len (fun _ => False) d)
    (hs : SameOutside mem mem' v len F) : HoldsWord ec.gen mem' v len F d := by
  intro r hr hF p hp
  rw [word, hs r hr hF p hp]
  exact h r hr id p hp

/-- Strips that hold the same words hold the same bytes. -/
theorem HoldsWord.bytes {v : Vector Ptr (k + n)} (h : HoldsWord ec.gen mem v len (fun _ => False) d)
    (h' : HoldsWord ec.gen mem' v len (fun _ => False) d) : SameOutside mem mem' v len fun _ => False :=
  fun r hr _ p hp => congrArg GF256.byte ((h' r hr id p hp).trans (h r hr id p hp).symm)

/-! ## Encoding -/

theorem tableRows_intact (h : Intact ec) {l : Nat} (hl : l < n) : tableRows k ec.g_tbls l = ec.gen (k + l) := by
  have hx : ∀ x, cell ec.g_tbls x = if x < n * k * 32 then
      tableByte (cell ec.encode_matrix (k * k + x / 32)) (x % 32) else cell ec.g_tbls x := fun x => by
    split
    · rename_i hx
      exact h x hx
    · rfl
  funext j
  rw [tableRows_init hx, if_pos hl, gen, rowsOf_apply, Nat.add_mul k l k, Nat.add_assoc]

theorem gen_data (h : Sound ec) {r : Nat} (hr : r < k) (d : Fin k → GF256) : ec.gen r ⬝ᵥ d = d ⟨r, hr⟩ := by
  have hrow : ec.gen r = Pi.single ⟨r, hr⟩ 1 := by
    rw [h r (by omega)]
    funext j
    simp [encodeMatrix, hr, Pi.single_apply, Fin.ext_iff, eq_comm]
  rw [hrow, single_one_dotProduct]

/-- What the encoders write is a codeword, when `g_tbls` is as the constructor
leaves it. -/
theorem encode_holds (hec : Sound ec) (hi : Intact ec) (hs : Strips mem (in_ ++ out) L) (hlen : len ≤ L)
    (h : Rewritten mem mem' (in_ ++ out) (fun r => k ≤ r) len (ec.encodedByte mem in_ out)) :
    HoldsWord ec.gen mem' (in_ ++ out) len (fun _ => False) fun p j => word mem (in_ ++ out) p j := by
  intro r hr _ p hp
  by_cases hrk : r < k
  · rw [gen_data hec hrk, word, h.stripByte_frame hs hlen hr (by omega) (by omega)]
    rfl
  · rw [word, h.stripByte_set hr (Nat.not_lt.1 hrk) hp, encodedByte, mk_dotBytes,
      ← Nat.add_sub_cancel' (Nat.not_lt.1 hrk), ← tableRows_intact hi (show r - k < n by omega),
      Nat.add_sub_cancel' (Nat.not_lt.1 hrk)]
    rfl

/-! ## Decoding -/

theorem recovered_word (hr : Recoverable ec E) (h : HoldsWord ec.gen mem matrix len (fun r => r ∈ E) d)
    {p : Nat} (hp : p < len) (e : Nat) : ec.recovered E (word mem matrix p) e = ec.gen e ⬝ᵥ d p :=
  Mds.recover_eq_of_fits hr.unit (fun i => (h _ (survivor_lt hr.enough i.isLt)
    (survivor_not_mem E i) p hp).symm) e

/-- Setting the strips in `E` to what the survivors determine restores the
words. -/
theorem decode_holds (hr : Recoverable ec E) (hs : Strips mem matrix len)
    (h : HoldsWord ec.gen mem matrix len (fun r => r ∈ E) d)
    (hw : Rewritten mem mem' matrix (fun r => r ∈ E) len fun e p =>
      (ec.recovered E (word mem matrix p) e).byte) :
    HoldsWord ec.gen mem' matrix len (fun _ => False) d := by
  intro r hrc _ p hp
  by_cases hrE : r ∈ E
  · rw [word, hw.stripByte_set hrc hrE hp]
    exact recovered_word hr h hp r
  · rw [word, hw.stripByte_frame hs (Nat.le_refl _) hrc hp fun hc => hrE hc.1]
    exact h r hrc hrE p hp

end

/-- **Round trip.** On a new object, encoding, losing the listed strips and
decoding leaves all `k + n` strips as they were after the encoding. `mem₂` is
the memory after the loss: it holds anything in the listed strips. -/
theorem encode_erase_decode (raw : IsaEC k n) {maxSize thread_num : Nat} (hkn : k + n ≤ 256)
    (hM : 0 < maxSize) {in_ : Vector Ptr k} {out : Vector Ptr n} {mem : Mem} {size : Nat}
    (hs : Strips mem (in_ ++ out) size) (hdvd : maxSize ∣ size) (hlt : size < 2 ^ 31) :
    Returns (new raw maxSize thread_num) fun ec =>
      Returns (encodePtr ec in_ out size mem) fun r => r.2 = true ∧
        ∀ (err_num : Nat) (err_list : Vector UInt8 err_num) (mem₂ : Mem), ValidList k n err_list →
          Strips mem₂ (in_ ++ out) size →
          SameOutside r.1 mem₂ (in_ ++ out) size (fun e => e ∈ erased err_list) →
          Returns (decodePtr ec (in_ ++ out) err_list size mem₂) fun r' => r'.2.2 = true ∧
            SameOutside r.1 r'.2.1 (in_ ++ out) size fun _ => False := by
  obtain ⟨ec, he⟩ := new_isSome raw maxSize thread_num hkn
  have hf := new_fresh he
  rw [he]
  rw [← hf.maxSize_eq] at hM hdvd
  refine returns_some ((encodePtr_mul ec hM hs hdvd hlt).mono fun r ⟨ht, hw⟩ => ⟨ht, ?_⟩)
  intro err_num err_list mem₂ hl hs₂ hsame
  have hr := hl.recoverable hkn hf.sound
  have hword := encode_holds hf.sound hf.intact hs (Nat.le_refl _) hw
  refine (decodePtr_spec hf.sound hM hl hr hs₂ hdvd).mono fun r' ⟨ht', _, hw'⟩ => ⟨ht', ?_⟩
  exact hword.bytes (decode_holds hr hs₂ (hword.congr hsame) hw')

/-- Two data strips in two blocks. A data strip and a parity strip are lost, and read 9. -/
theorem encode_erase_decode_two : ∃ ec : IsaEC 2 2, new default 1 4 = some ec ∧
    encodePtr ec (ownBuffers 0 2) (ownBuffers 2 2) 2 #[#[5, 6], #[1, 2], #[0, 0], #[0, 0]] =
      some (#[#[5, 6], #[1, 2], #[120, 246], #[141, 3]], true) ∧
    Returns (decodePtr ec (ownBuffers 0 2 ++ ownBuffers 2 2) #v[3, 0] 2 #[#[9, 9], #[1, 2], #[120, 246], #[9, 9]])
      fun r' => r'.2.2 = true ∧
        SameOutside #[#[5, 6], #[1, 2], #[120, 246], #[141, 3]] r'.2.1 (ownBuffers 0 2 ++ ownBuffers 2 2) 2 fun _ => False := by
  have hcomp : (new (default : IsaEC 2 2) 1 4 >>= fun ec =>
      encodePtr ec (ownBuffers 0 2) (ownBuffers 2 2) 2 #[#[5, 6], #[1, 2], #[0, 0], #[0, 0]]) =
        some (#[#[5, 6], #[1, 2], #[120, 246], #[141, 3]], true) := by
    decide +kernel
  obtain ⟨ec, h, r, hr, -, hdec⟩ := @encode_erase_decode 2 2 default 1 4 (by decide) (by decide) (ownBuffers 0 2)
    (ownBuffers 2 2) #[#[5, 6], #[1, 2], #[0, 0], #[0, 0]] 2 (by decide) (by decide) (by decide)
  rw [h, Option.bind_eq_bind, Option.bind_some] at hcomp
  obtain rfl := Option.some.inj (hr.symm.trans hcomp)
  refine ⟨ec, h, hr, hdec 2 #v[3, 0] #[#[9, 9], #[1, 2], #[120, 246], #[9, 9]] ⟨by decide, by decide⟩ (by decide) ?_⟩
  unfold SameOutside
  decide

/-! ## Any strips, any history -/

/-- The listed strips hold what the `k` lowest unlisted strips determine, and
the others are unchanged. -/
structure Solves (ec : IsaEC k n) (E : Finset Nat) (mem mem' : Mem) (matrix : Vector Ptr (k + n))
    (size : Nat) : Prop where
  unlisted : SameOutside mem mem' matrix size fun r => r ∈ E
  unique : ∀ p, p < size →
    ∃! D : Fin k → GF256, ∀ i : Fin k, ec.gen (survivor E i) ⬝ᵥ D = word mem matrix p (survivor E i)
  listed : ∀ p, p < size → ∀ D : Fin k → GF256,
    (∀ i : Fin k, ec.gen (survivor E i) ⬝ᵥ D = word mem matrix p (survivor E i)) →
      ∀ e, e < k + n → e ∈ E → word mem' matrix p e = ec.gen e ⬝ᵥ D

theorem solves_of_rewritten {ec : IsaEC k n} {E : Finset Nat} {mem mem' : Mem} {matrix : Vector Ptr (k + n)}
    {size : Nat} (hr : Recoverable ec E) (hs : Strips mem matrix size)
    (hw : Rewritten mem mem' matrix (fun r => r ∈ E) size fun e p =>
      (ec.recovered E (word mem matrix p) e).byte) : Solves ec E mem mem' matrix size := by
  refine ⟨fun r hrc hrE p hp => ?_, fun p _ => ?_, fun p hp D hD e he heE => ?_⟩
  · exact hw.stripByte_frame hs (Nat.le_refl _) hrc hp fun hc => hrE hc.1
  · exact Mds.existsUnique_data hr.unit (word mem matrix p)
  · rw [word, hw.stripByte_set he heE hp]
    exact Mds.recover_eq_of_fits hr.unit hD e

/-- `decode_ptr` on any strips, from any reachable object. The listed strips
depend on the set of listed strips and on the `k` lowest unlisted strips only:
a second object, list and memory that agree on these give the same bytes. -/
theorem decodePtr_solves {maxSize thread_num : Nat} {ec : IsaEC k n} (hreach : Reachable maxSize thread_num ec)
    (hkn : k + n ≤ 256) (hM : 0 < maxSize) {err_num : Nat} {err_list : Vector UInt8 err_num}
    (hl : ValidList k n err_list) {matrix : Vector Ptr (k + n)} {mem : Mem} {size : Nat}
    (hs : Strips mem matrix size) (hdvd : maxSize ∣ size) :
    Returns (decodePtr ec matrix err_list size mem) fun r => r.2.2 = true ∧
      Solves ec (erased err_list) mem r.2.1 matrix size ∧
      ∀ (thread_num₂ : Nat) (ec₂ : IsaEC k n) (err_num₂ : Nat) (err_list₂ : Vector UInt8 err_num₂)
        (matrix₂ : Vector Ptr (k + n)) (mem₂ : Mem), Reachable maxSize thread_num₂ ec₂ →
        ValidList k n err_list₂ → erased err_list₂ = erased err_list → Strips mem₂ matrix₂ size →
        (∀ i, i < k → ∀ p, p < size → stripByte mem₂ matrix₂ (survivor (erased err_list) i) p =
          stripByte mem matrix (survivor (erased err_list) i) p) →
        Returns (decodePtr ec₂ matrix₂ err_list₂ size mem₂) fun r₂ => ∀ e, e < k + n → e ∈ erased err_list →
          ∀ p, p < size → stripByte r₂.2.1 matrix₂ e p = stripByte r.2.1 matrix e p := by
  obtain ⟨hec, hmax, -⟩ := hreach.sound
  subst hmax
  have hr := hl.recoverable hkn hec
  refine (decodePtr_spec hec hM hl hr hs hdvd).mono fun r ⟨ht, _, hw⟩ =>
    ⟨ht, solves_of_rewritten hr hs hw, ?_⟩
  intro thread_num₂ ec₂ err_num₂ err_list₂ matrix₂ mem₂ hreach₂ hl₂ hE hs₂ hsame
  obtain ⟨hec₂, hmax₂, -⟩ := hreach₂.sound
  have hr₂ := hl₂.recoverable hkn hec₂
  refine (decodePtr_spec hec₂ (hmax₂ ▸ hM) hl₂ hr₂ hs₂ (hmax₂ ▸ hdvd)).mono fun r₂ ⟨_, _, hw₂⟩ => ?_
  have hsol₂ := solves_of_rewritten hr₂ hs₂ hw₂
  intro e he heE p hp
  -- one data vector fits both
  obtain ⟨D, hD, -⟩ := (solves_of_rewritten hr hs hw).unique p hp
  have h1 := (solves_of_rewritten hr hs hw).listed p hp D hD e he heE
  have h2 := hsol₂.listed p hp D (fun i => ?_) e he (by rw [hE]; exact heE)
  · rw [hec₂ e he, ← hec e he, ← h1] at h2
    exact congrArg GF256.byte h2
  · have hlt := survivor_lt hr.enough i.isLt
    rw [hE, hec₂ _ hlt, ← hec _ hlt, hD i, word, word, hsame i i.isLt p hp]

theorem new_reachable {raw ec : IsaEC k n} {maxSize thread_num : Nat} (h : new raw maxSize thread_num = some ec) :
    Reachable maxSize thread_num ec :=
  ⟨raw, ec, [], h, rfl⟩

/-- The second call has the strip listed twice, and other bytes in the lost
strip and in the one that is not used. -/
theorem decodePtr_solves_one : ∃ ec : IsaEC 1 2, Reachable 1 4 ec ∧
    Returns (decodePtr ec (ownBuffers 0 3) #v[0] 1 #[#[5], #[7], #[9]]) fun r => r.2.2 = true ∧
      Solves ec (erased #v[0]) #[#[5], #[7], #[9]] r.2.1 (ownBuffers 0 3) 1 ∧
      Returns (decodePtr ec (ownBuffers 0 3) #v[0, 0] 1 #[#[6], #[7], #[8]]) fun r₂ =>
        ∀ e, e < 1 + 2 → e ∈ erased #v[0] → ∀ p, p < 1 →
          stripByte r₂.2.1 (ownBuffers 0 3) e p = stripByte r.2.1 (ownBuffers 0 3) e p := by
  obtain ⟨ec, h⟩ := new_isSome (default : IsaEC 1 2) 1 4 (by decide)
  have hreach := new_reachable h
  have hE : erased #v[0, 0] = erased #v[0] := by decide
  have hsurv : survivor (erased #v[0]) 0 = 1 :=
    (survivor_next passed_zero (Nat.zero_le 1) (by decide) (by decide)).1
  refine ⟨ec, hreach, (decodePtr_solves hreach (by decide) (by decide) ⟨by decide, by decide⟩
    (by decide) (by decide)).mono fun r ⟨ht, hs, hdet⟩ => ⟨ht, hs, ?_⟩⟩
  refine hdet 4 ec 2 #v[0, 0] (ownBuffers 0 3) #[#[6], #[7], #[8]] hreach ⟨by decide, by decide⟩ hE (by decide) ?_
  intro i hi p hp
  obtain rfl : i = 0 := by omega
  obtain rfl : p = 0 := by omega
  rw [hsurv]
  decide

/-! ## The cached decoder -/

/-- How many bytes of each strip `cache_decode_ptr` covers when it is passed
`size`. -/
def covered (k maxSize size : Nat) : Nat := (size / k + maxSize - 1) / maxSize * maxSize

theorem covered_mul {maxSize : Nat} (hk : 0 < k) (hM : 0 < maxSize) (B : Nat) :
    covered k maxSize (k * (B * maxSize)) = B * maxSize := by
  rw [covered, Nat.mul_div_cancel_left _ hk, ceil_mul hM]

/-- It never covers more than `size` bytes, and covers that many only when there
is one data strip, or one block and `k` bytes in it. -/
theorem covered_le {maxSize size : Nat} (hk : 0 < k) (hM : 0 < maxSize) (hdvd : maxSize ∣ size) :
    covered k maxSize size ≤ size ∧
      (covered k maxSize size = size ↔ k = 1 ∨ size = 0 ∨ (size = maxSize ∧ k ≤ maxSize)) := by
  obtain ⟨B, rfl⟩ := hdvd
  -- in blocks: `t` of them are covered
  have hcov : covered k maxSize (maxSize * B) = maxSize * ((maxSize * B / k + maxSize - 1) / maxSize) :=
    Nat.mul_comm _ _
  have hmulk : maxSize * B / k * k ≤ maxSize * B := Nat.div_mul_le_self _ _
  rw [hcov]
  have ht : ∀ t, (maxSize * B / k + maxSize - 1) / maxSize < t ↔
      maxSize * B / k + maxSize - 1 < maxSize * t := fun t => by
    rw [Nat.div_lt_iff_lt_mul hM, Nat.mul_comm t]
  have hle : (maxSize * B / k + maxSize - 1) / maxSize ≤ B := by
    refine Nat.le_of_lt_succ ((ht _).2 ?_)
    have := Nat.div_le_self (maxSize * B) k
    rw [Nat.mul_succ]
    omega
  refine ⟨Nat.mul_le_mul_left _ hle, ?_⟩
  rw [Nat.mul_right_inj (Nat.ne_of_gt hM)]
  rcases Nat.lt_or_ge B 2 with hB | hB
  · rcases Nat.lt_or_ge B 1 with hB | hB'
    · obtain rfl : B = 0 := by omega
      simp only [Nat.mul_zero, Nat.zero_div, Nat.zero_add, true_or, or_true, iff_true]
      exact Nat.div_eq_of_lt (by omega)
    · -- one block
      obtain rfl : B = 1 := by omega
      simp only [Nat.mul_one] at ht hle hmulk ⊢
      have h1 : (maxSize / k + maxSize - 1) / maxSize = 1 ↔ 0 < maxSize / k := by
        have := ht 1
        omega
      rw [h1, Nat.div_pos_iff, true_and]
      omega
  · obtain ⟨C, rfl⟩ : ∃ C, B = C + 2 := ⟨B - 2, by omega⟩
    rcases Nat.lt_or_ge k 2 with hk2 | hk2
    · obtain rfl : k = 1 := by omega
      simp only [Nat.div_one, true_or, iff_true]
      rw [Nat.add_sub_assoc hM, Nat.mul_add_div hM, Nat.div_eq_of_lt (by omega), Nat.add_zero]
    · have h2 : maxSize * (C + 2) / k * 2 ≤ maxSize * (C + 2) :=
        Nat.le_trans (Nat.mul_le_mul_left _ hk2) hmulk
      have hlt := (ht (C + 2)).2 (by rw [Nat.mul_add] at h2 ⊢; omega)
      have hne : maxSize * (C + 2) ≠ maxSize := by rw [Nat.mul_add]; omega
      have hne0 : maxSize * (C + 2) ≠ 0 := by rw [Nat.mul_add]; omega
      omega

/-- **The cached decoder on strips of `size` bytes.** `encode_ptr`, the loss of
the listed strips, `cache_g_tbls` and `cache_decode_ptr`, all with the same
`size`, restore every strip exactly when there is one data strip, or no byte,
or one block of at least `k` bytes, or when the lost strips happen to hold the
right bytes from `covered k maxSize size` on. -/
theorem cached_restores_iff (raw : IsaEC k n) {maxSize thread_num : Nat} (hk : 0 < k) (hkn : k + n ≤ 256)
    (hM : 0 < maxSize) {in_ : Vector Ptr k} {out : Vector Ptr n} {mem : Mem} {size : Nat}
    (hs : Strips mem (in_ ++ out) size) (hdvd : maxSize ∣ size) (hlt : size < 2 ^ 31) :
    Returns (new raw maxSize thread_num) fun ec =>
      Returns (encodePtr ec in_ out size mem) fun r => r.2 = true ∧
        ∀ (err_num : Nat) (err_list : Vector UInt8 err_num) (mem₂ : Mem), ValidList k n err_list →
          Strips mem₂ (in_ ++ out) size →
          SameOutside r.1 mem₂ (in_ ++ out) size (fun e => e ∈ erased err_list) →
          Returns (cacheGTbls ec err_list) fun c => c.2 = true ∧
            Returns (cacheDecodePtr c.1 (in_ ++ out) err_list size mem₂) fun r' => r'.2 = true ∧
              (SameOutside r.1 r'.1 (in_ ++ out) size (fun _ => False) ↔
                (k = 1 ∨ size = 0 ∨ (size = maxSize ∧ k ≤ maxSize)) ∨
                  ∀ e, e ∈ erased err_list → ∀ p, covered k maxSize size ≤ p → p < size →
                    stripByte mem₂ (in_ ++ out) e p = stripByte r.1 (in_ ++ out) e p) := by
  obtain ⟨ec, he⟩ := new_isSome raw maxSize thread_num hkn
  have hf := new_fresh he
  rw [he]
  have hcov := covered_le hk hM hdvd
  rw [← hf.maxSize_eq] at hM hdvd hcov ⊢
  refine returns_some ((encodePtr_mul ec hM hs hdvd hlt).mono fun r ⟨ht, hw⟩ => ⟨ht, ?_⟩)
  intro err_num err_list mem₂ hl hs₂ hsame
  have hr := hl.recoverable hkn hf.sound
  have hword := encode_holds hf.sound hf.intact hs (Nat.le_refl _) hw
  refine (cacheGTbls_spec hf.sound hl hr).mono fun c ⟨hc, hca⟩ => ⟨hc, ?_⟩
  have hsc := hca.toSameCode
  have hle : size / k ≤ size := Nat.div_le_self _ _
  rw [← hsc.maxSize] at hM hcov ⊢
  refine (cacheDecodePtr_spec hM hk hca.decodes hl (hsc.recoverable hr) hs₂ (by omega) hcov.1).mono
    fun r' ⟨ht', hw'⟩ => ⟨ht', ?_⟩
  change Rewritten mem₂ r'.1 (in_ ++ out) _ (covered k c.1.maxSize size) _ at hw'
  -- a listed strip is restored as far as the decoder goes
  have hdone : ∀ e, e < k + n → e ∈ erased err_list → ∀ p, p < covered k c.1.maxSize size →
      stripByte r'.1 (in_ ++ out) e p = stripByte r.1 (in_ ++ out) e p := by
    intro e he heE p hp
    have hword₂ := hword.congr hsame
    rw [hw'.stripByte_set he heE hp, hsc.recovered, recovered_word hr hword₂ (by omega)]
    exact congrArg GF256.byte (hword e he id p (by omega)).symm
  constructor
  · intro hall
    refine .inr fun e heE p hp1 hp2 => ?_
    obtain ⟨i, hi, rfl⟩ := mem_erased.1 heE
    rw [← hall _ (hl.2 i hi) id p hp2]
    exact (hw'.stripByte_frame hs₂ hcov.1 (hl.2 i hi) hp2 fun hc => by omega).symm
  · intro h e he _ p hp
    by_cases heE : e ∈ erased err_list
    · by_cases hpc : p < covered k c.1.maxSize size
      · exact hdone e he heE p hpc
      · rcases h with h | h
        · have := hcov.2.2 h
          omega
        · rw [hw'.stripByte_frame hs₂ hcov.1 he hp fun hc => hpc hc.2]
          exact h e heE p (by omega) hp
    · rw [hw'.stripByte_frame hs₂ hcov.1 he hp fun hc => heE hc.1]
      exact hsame e he heE p hp

theorem cached_restores_iff_two : ∃ ec c : IsaEC 2 1, new default 1 4 = some ec ∧
    encodePtr ec (ownBuffers 0 2) (ownBuffers 2 1) 2 #[#[0, 0], #[0, 0], #[0, 0]] =
      some (#[#[0, 0], #[0, 0], #[0, 0]], true) ∧
    cacheGTbls ec #v[0] = some (c, true) ∧
    Returns (cacheDecodePtr c (ownBuffers 0 2 ++ ownBuffers 2 1) #v[0] 2 #[#[0, 1], #[0, 0], #[0, 0]]) fun r' =>
      r'.2 = true ∧
        (SameOutside #[#[0, 0], #[0, 0], #[0, 0]] r'.1 (ownBuffers 0 2 ++ ownBuffers 2 1) 2 (fun _ => False) ↔
          (2 = 1 ∨ 2 = 0 ∨ (2 = 1 ∧ 2 ≤ 1)) ∨
            ∀ e, e ∈ erased #v[0] → ∀ p, covered 2 1 2 ≤ p → p < 2 →
              stripByte #[#[0, 1], #[0, 0], #[0, 0]] (ownBuffers 0 2 ++ ownBuffers 2 1) e p =
                stripByte #[#[0, 0], #[0, 0], #[0, 0]] (ownBuffers 0 2 ++ ownBuffers 2 1) e p) := by
  have hcomp : (new (default : IsaEC 2 1) 1 4 >>= fun ec =>
      encodePtr ec (ownBuffers 0 2) (ownBuffers 2 1) 2 #[#[0, 0], #[0, 0], #[0, 0]]) =
      some (#[#[0, 0], #[0, 0], #[0, 0]], true) := by decide +kernel
  obtain ⟨ec, h, r, hr, -, hdec⟩ := @cached_restores_iff 2 1 default 1 4 (by decide) (by decide) (by decide)
    (ownBuffers 0 2) (ownBuffers 2 1) #[#[0, 0], #[0, 0], #[0, 0]] 2 (by decide) (by decide) (by decide)
  rw [h, Option.bind_eq_bind, Option.bind_some] at hcomp
  obtain rfl := Option.some.inj (hr.symm.trans hcomp)
  obtain ⟨⟨c, b⟩, hc, rfl, hres⟩ := hdec 1 #v[0] #[#[0, 1], #[0, 0], #[0, 0]] ⟨by decide, by decide⟩ (by decide)
    (by unfold SameOutside; decide)
  exact ⟨ec, c, h, hr, hc, hres⟩

/-- Two data strips of two bytes, blocks of one byte, all bytes 0; strip 0 is
lost and its second byte reads 1. The cached decoder leaves it at 1. -/
theorem cached_leaves_tail : (do
    let ec ← new (default : IsaEC 2 1) 1 4
    let r ← encodePtr ec (ownBuffers 0 2) (ownBuffers 2 1) 2 #[#[0, 0], #[0, 0], #[0, 0]]
    let c ← cacheGTbls ec #v[0]
    let r' ← cacheDecodePtr c.1 (ownBuffers 0 3) #v[0] 2 #[#[0, 1], #[0, 0], #[0, 0]]
    return (r, r')) =
    some ((#[#[0, 0], #[0, 0], #[0, 0]], true), (#[#[0, 1], #[0, 0], #[0, 0]], true)) := by
  decide +kernel

end ErasureCode.IsaEC
