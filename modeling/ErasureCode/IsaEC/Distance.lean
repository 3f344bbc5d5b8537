import ErasureCode.Core.Distance
import ErasureCode.IsaEC.Recovery

/-!
# How far apart encodings are

Any `k` of the `k + n` strips determine the data, so two encodings of different
data differ in more than `n` strips, byte position by byte position
(`encode_distance`).

The decoders check nothing: they take the `k` lowest unlisted strips as they are.
When one of these is wrong at a position, so is every strip they restore there
(`corruption_spreads_iff`); an unlisted strip after them is never read.
-/
namespace ErasureCode.IsaEC

open ErasureCode.Core Isal Matrix

variable {k n : Nat}

theorem gen_anyRows {ec : IsaEC k n} (hec : Sound ec) (hkn : k + n ≤ 256) :
    Mds.AnyRows ec.gen fun r => r < k + n := by
  intro σ hσ hlt
  have e : ec.gen.submatrix σ id = (encodeMatrix k).submatrix σ id := by
    funext i
    exact hec _ (hlt i)
  rw [e]
  exact encodeMatrix_isUnit (by omega) hσ fun i => by have := hlt i; omega

section
variable {maxSize thread_num size : Nat} {raw ec : IsaEC k n}

/-- **Distance.** Data that differs in a byte is encoded to strips more than `n` of
which differ in that byte. -/
theorem encode_distance (hnew : new raw maxSize thread_num = some ec) (hkn : k + n ≤ 256) (hM : 0 < maxSize)
    (hdvd : maxSize ∣ size) (hlt : size < 2 ^ 31) {in_ in_' : Vector Ptr k} {out out' : Vector Ptr n} {mem mem' : Mem}
    (hs : Strips mem (in_ ++ out) size) (hs' : Strips mem' (in_' ++ out') size) :
    Returns (encodePtr ec in_ out size mem) fun r => Returns (encodePtr ec in_' out' size mem') fun r' =>
      ∀ j, j < k → ∀ p, p < size → stripByte mem (in_ ++ out) j p ≠ stripByte mem' (in_' ++ out') j p →
        n < ((Finset.range (k + n)).filter fun i =>
          ¬ stripByte r.1 (in_ ++ out) i p = stripByte r'.1 (in_' ++ out') i p).card := by
  have hf := new_fresh hnew
  obtain rfl := hf.maxSize_eq
  refine (encodePtr_mul ec hM hs hdvd hlt).mono fun r ⟨_, hw⟩ =>
    (encodePtr_mul ec hM hs' hdvd hlt).mono fun r' ⟨_, hw'⟩ j hj p hp hne => ?_
  have hword := encode_holds hf.sound hf.intact hs (Nat.le_refl _) hw
  have hword' := encode_holds hf.sound hf.intact hs' (Nat.le_refl _) hw'
  have hd : (fun i : Fin k => word mem (in_ ++ out) p i) ≠ fun i : Fin k => word mem' (in_' ++ out') p i := fun e =>
    hne (congrArg GF256.byte (congrFun e ⟨j, hj⟩))
  have hcard := (gen_anyRows hf.sound hkn).distance (U := Finset.range (k + n)) (fun r hr => Finset.mem_range.1 hr) hd
  rw [Finset.card_range, Fintype.card_fin] at hcard
  have hsame : ∀ i ∈ Finset.range (k + n), (¬ ec.gen i ⬝ᵥ (fun i : Fin k => word mem (in_ ++ out) p i) =
      ec.gen i ⬝ᵥ fun i : Fin k => word mem' (in_' ++ out') p i) ↔
        ¬ stripByte r.1 (in_ ++ out) i p = stripByte r'.1 (in_' ++ out') i p := fun i hi => by
    rw [← hword i (Finset.mem_range.1 hi) id p hp, ← hword' i (Finset.mem_range.1 hi) id p hp]
    exact not_congr ⟨fun h => congrArg GF256.byte h, fun h => congrArg GF256.mk h⟩
  rw [Finset.filter_congr hsame] at hcard
  omega

theorem encode_distance_one : ∃ ec : IsaEC 1 1, new default 1 4 = some ec ∧
    Returns (encodePtr ec (ownBuffers 0 1) (ownBuffers 1 1) 1 #[#[5], #[0]]) fun r =>
      Returns (encodePtr ec (ownBuffers 0 1) (ownBuffers 1 1) 1 #[#[6], #[0]]) fun r' =>
        1 < ((Finset.range (1 + 1)).filter fun i =>
          ¬ stripByte r.1 (ownBuffers 0 1 ++ ownBuffers 1 1) i 0 =
            stripByte r'.1 (ownBuffers 0 1 ++ ownBuffers 1 1) i 0).card := by
  obtain ⟨ec, h⟩ := new_isSome (default : IsaEC 1 1) 1 4 (by decide)
  exact ⟨ec, h, (encode_distance h (by decide) (by decide) (by decide) (by decide)
    (show Strips #[#[5], #[0]] (ownBuffers 0 1 ++ ownBuffers 1 1) 1 by decide) (by decide)).mono fun r hr => hr.mono fun r' hr' => hr' 0 (by decide) 0 (by decide) (by decide)⟩

/-- What a decode restores from survivors one of which, `r₀`, may be wrong. -/
theorem recovered_eq_iff (hec : Sound ec) (hkn : k + n ≤ 256) {E : Finset Nat} (hE : k ≤ passed E (k + n)) {r₀ : Nat}
    (hr₀ : r₀ ∉ E) {w w' : Nat → GF256} (hsame : ∀ r, r < k + n → r ∉ E → r ≠ r₀ → w' r = w r) {e : Nat}
    (he : e < k + n) (heE : e ∈ E) :
    ec.recovered E w' e = ec.recovered E w e ↔ k ≤ passed E r₀ ∨ w' r₀ = w r₀ := by
  have hlt : ∀ i : Fin k, survivor E i < k + n := fun i => survivor_lt hE i.isLt
  have hother : ∀ i : Fin k, survivor E i ≠ r₀ → w' (survivor E i) = w (survivor E i) := fun i hi =>
    hsame _ (hlt i) (survivor_not_mem E i) hi
  have hcongr : (∀ i : Fin k, w' (survivor E i) = w (survivor E i)) → ec.recovered E w' e = ec.recovered E w e :=
    fun h => by
      unfold recovered Mds.recover
      rw [funext h]
  by_cases hk : k ≤ passed E r₀
  · -- `r₀` comes after the survivors that are read
    refine iff_of_true (hcongr fun i => hother i fun hc => ?_) (.inl hk)
    have := passed_survivor E i
    rw [hc, passed, Nat.count_succ, if_pos hr₀] at this
    have : passed E r₀ = i := by unfold passed; omega
    omega
  · have hi₀ : survivor E (passed E r₀) = r₀ := survivor_passed hr₀
    have hi : passed E r₀ < k := Nat.not_le.1 hk
    constructor
    · intro heq
      by_contra hc
      have hlast : ∀ i : Fin k, i ≠ ⟨passed E r₀, hi⟩ → w (survivor E i) = w' (survivor E i) := fun i hne =>
        (hother i fun h => hne (Fin.ext (survivor_inj (h.trans hi₀.symm)))).symm
      have hinj : Function.Injective fun i : Fin k => survivor E i := fun i j h => Fin.ext (survivor_inj h)
      refine (gen_anyRows hec hkn).recover_ne hinj hlt (fun i hie => ?_) he hlast ?_ heq.symm
      · exact survivor_not_mem E i (hie ▸ heE)
      · rw [hi₀]
        exact fun h => hc (.inr h.symm)
    · rintro (h | h)
      · exact absurd h hk
      · refine hcongr fun i => ?_
        by_cases hir : survivor E i = r₀
        · rw [hir, h]
        · exact hother i hir

/-- **A wrong survivor.** The strips hold what `encode_ptr` left in them, but for
the listed ones and one other, `r₀`. A byte of a listed strip is restored exactly
when `k` unlisted strips come before `r₀`, or `r₀` is right in that byte. -/
theorem corruption_spreads_iff (hnew : new raw maxSize thread_num = some ec) (hkn : k + n ≤ 256) (hM : 0 < maxSize)
    (hdvd : maxSize ∣ size) (hlt : size < 2 ^ 31) {in_ : Vector Ptr k} {out : Vector Ptr n} {mem : Mem}
    (hs : Strips mem (in_ ++ out) size) {thread_num₂ : Nat} {ec₂ : IsaEC k n} (hreach : Reachable maxSize thread_num₂ ec₂) :
    Returns (encodePtr ec in_ out size mem) fun r =>
      ∀ (err_num : Nat) (err_list : Vector UInt8 err_num) (mem₂ : Mem) (r₀ : Nat), ValidList k n err_list →
        Strips mem₂ (in_ ++ out) size → r₀ < k + n → r₀ ∉ erased err_list →
        SameOutside r.1 mem₂ (in_ ++ out) size (fun e => e ∈ erased err_list ∨ e = r₀) →
        Returns (decodePtr ec₂ (in_ ++ out) err_list size mem₂) fun r' => ∀ e, e ∈ erased err_list → ∀ p, p < size →
          (stripByte r'.2.1 (in_ ++ out) e p = stripByte r.1 (in_ ++ out) e p ↔
            k ≤ passed (erased err_list) r₀ ∨ stripByte mem₂ (in_ ++ out) r₀ p = stripByte r.1 (in_ ++ out) r₀ p) := by
  have hf := new_fresh hnew
  obtain rfl := hf.maxSize_eq
  obtain ⟨hec₂, hmax₂, -⟩ := hreach.sound
  refine (encodePtr_mul ec hM hs hdvd hlt).mono fun r ⟨_, hw⟩ => ?_
  intro err_num err_list mem₂ r₀ hl hs₂ hr₀lt hr₀ hsame
  have hword := encode_holds hf.sound hf.intact hs (Nat.le_refl _) hw
  have hr := hl.recoverable hkn hec₂
  refine (decodePtr_spec hec₂ (hmax₂ ▸ hM) hl hr hs₂ (hmax₂ ▸ hdvd)).mono fun r' ⟨_, _, hw'⟩ e he p hp => ?_
  obtain ⟨i, hi, rfl⟩ := mem_erased.1 he
  have hgen : ∀ r, r < k + n → ec.gen r = ec₂.gen r := fun r hr => (hf.sound r hr).trans (hec₂ r hr).symm
  -- the strips as they were before anything was lost
  have htrue : ec₂.recovered (erased err_list) (word r.1 (in_ ++ out) p) (entry err_list i) =
      word r.1 (in_ ++ out) p (entry err_list i) := by
    have hholds : HoldsWord ec₂.gen r.1 (in_ ++ out) size (fun r => r ∈ erased err_list) fun p j =>
        word mem (in_ ++ out) p j := fun r' hr' _ p hp => by
      rw [← hgen r' hr']
      exact hword r' hr' id p hp
    rw [recovered_word hr hholds hp, ← hgen _ (hl.2 i hi)]
    exact (hword _ (hl.2 i hi) id p hp).symm
  rw [hw'.stripByte_set (hl.2 i hi) he hp]
  have hlast : ∀ r'', r'' < k + n → r'' ∉ erased err_list → r'' ≠ r₀ →
      word mem₂ (in_ ++ out) p r'' = word r.1 (in_ ++ out) p r'' := fun r'' hr'' hE hne =>
    congrArg GF256.mk (hsame r'' hr'' (fun h => h.elim hE hne) p hp)
  have hiff := recovered_eq_iff hec₂ hkn hl.le_passed hr₀ hlast (hl.2 i hi) he
  rw [htrue] at hiff
  constructor
  · intro h
    exact (hiff.1 (GF256.ext h)).imp_right fun h => congrArg GF256.byte h
  · intro h
    exact congrArg GF256.byte (hiff.2 (h.imp_right fun h => GF256.ext h))

/-- Strip 0 is lost, and strip 1, the first survivor, reads 7. -/
theorem corruption_spreads_iff_two : ∃ ec : IsaEC 1 2, new default 1 4 = some ec ∧
    encodePtr ec (ownBuffers 0 1) (ownBuffers 1 2) 1 #[#[0], #[0], #[0]] = some (#[#[0], #[0], #[0]], true) ∧
    Returns (decodePtr ec (ownBuffers 0 1 ++ ownBuffers 1 2) #v[0] 1 #[#[9], #[7], #[0]]) fun r' =>
      (stripByte r'.2.1 (ownBuffers 0 1 ++ ownBuffers 1 2) 0 0 =
          stripByte #[#[0], #[0], #[0]] (ownBuffers 0 1 ++ ownBuffers 1 2) 0 0 ↔
        1 ≤ passed (erased #v[0]) 1 ∨ stripByte #[#[9], #[7], #[0]] (ownBuffers 0 1 ++ ownBuffers 1 2) 1 0 =
          stripByte #[#[0], #[0], #[0]] (ownBuffers 0 1 ++ ownBuffers 1 2) 1 0) := by
  have hcomp : (new (default : IsaEC 1 2) 1 4 >>= fun ec =>
      encodePtr ec (ownBuffers 0 1) (ownBuffers 1 2) 1 #[#[0], #[0], #[0]]) = some (#[#[0], #[0], #[0]], true) := by
    decide +kernel
  obtain ⟨ec, h⟩ := new_isSome (default : IsaEC 1 2) 1 4 (by decide)
  obtain ⟨r, hr, hdec⟩ := corruption_spreads_iff h (by decide) (by decide) (by decide) (by decide)
    (show Strips #[#[0], #[0], #[0]] (ownBuffers 0 1 ++ ownBuffers 1 2) 1 by decide) (new_reachable h)
  rw [h, Option.bind_eq_bind, Option.bind_some] at hcomp
  obtain rfl := Option.some.inj (hr.symm.trans hcomp)
  refine ⟨ec, h, hr, (hdec 1 #v[0] #[#[9], #[7], #[0]] 1 ⟨by decide, by decide⟩ (by decide) (by decide) (by decide)
    ?_).mono fun r' hr' => hr' 0 (by decide) 0 (by decide)⟩
  intro i hi hne p hp
  match i, hi with
  | 0, _ => exact absurd (.inl (by decide)) hne
  | 1, _ => exact absurd (.inr rfl) hne
  | 2, _ => obtain rfl := Nat.lt_one_iff.1 hp; decide

end

end ErasureCode.IsaEC
