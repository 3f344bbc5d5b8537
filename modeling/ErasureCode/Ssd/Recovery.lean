import ErasureCode.IsaEC.Distance
import ErasureCode.Ssd.Segments
import ErasureCode.Ssd.Store

/-!
# Losing strips and devices

A program stores strips by two kinds of rounds: `encode_ptr` on a segment, and the
transfer of a segment of one strip. Whatever their order, as long as the parity
bytes are encoded before they are sent, the bytes that were sent are on the
devices as the data and its parity (`rounds_store`). So any strips may then be
lost for which there is an erasure list: what a read gives is put right by
`decode_ptr` (`degraded_read`).

A device holds several strips. `device_loss_iff`: the other two determine all
strips exactly when it holds at most `n` of them.
-/
namespace ErasureCode.Ssd

open ErasureCode.Core Isal IsaEC Matrix

variable {k n : Nat}

/-! ## Rounds -/

/-- `encode_ptr` on the segment of `s.2` bytes at `s.1`, or the transfer of this
segment of strip `i`. -/
inductive Round
  | encode (s : Nat × Nat)
  | send (o : Outcome) (i : Nat) (s : Nat × Nat)

/-- The round, on the memory and the log. -/
def Round.exec (ec : IsaEC k n) (in_ : Vector Ptr k) (out : Vector Ptr n) (a : Round) (s : Mem × List Pwrite) :
    Option (Mem × List Pwrite) :=
  match a with
  | .encode g => do return (← encodeSegment ec in_ out g s.1, s.2)
  | .send o i g => do return (s.1, ← writeStrip o (advance in_ g.1) (advance out g.1) g.2 g.1 s.1 i s.2)

/-- The segment is in the strips, and `encode_ptr` takes it. -/
def Round.Fits (k n maxSize len : Nat) : Round → Prop
  | .encode g => g.1 + g.2 ≤ len ∧ g.2 < 2 ^ 31 ∧ maxSize ∣ g.2
  | .send _ i g => i < k + n ∧ g.1 + g.2 ≤ len

/-- A round encodes byte `q` of the parity strips. -/
def EncodedIn (w : List Round) (q : Nat) : Prop := ∃ g, .encode g ∈ w ∧ g.1 ≤ q ∧ q < g.1 + g.2

/-- A round moves byte `q` of strip `i`. -/
def SentIn (w : List Round) (i q : Nat) : Prop :=
  ∃ o g, .send o i g ∈ w ∧ g.1 ≤ q ∧ q < g.1 + o.transferred g.2

/-- Parity bytes are encoded before they are sent. -/
def EncodesFirst (k : Nat) (w : List Round) : Prop :=
  ∀ w₁ o i g w₂, w = w₁ ++ .send o i g :: w₂ → k ≤ i → ∀ q, g.1 ≤ q → q < g.1 + g.2 → EncodedIn w₁ q

theorem encodedIn_append_send {w : List Round} {o : Outcome} {i : Nat} {g : Nat × Nat} {q : Nat} :
    EncodedIn (w ++ [.send o i g]) q ↔ EncodedIn w q := by
  simp [EncodedIn]

theorem encodedIn_append_encode {w : List Round} {g : Nat × Nat} {q : Nat} :
    EncodedIn (w ++ [.encode g]) q ↔ EncodedIn w q ∨ (g.1 ≤ q ∧ q < g.1 + g.2) := by
  simp only [EncodedIn, List.mem_append, List.mem_singleton, Round.encode.injEq, or_and_right, exists_or]
  simp

theorem sentIn_append_encode {w : List Round} {g : Nat × Nat} {i q : Nat} :
    SentIn (w ++ [.encode g]) i q ↔ SentIn w i q := by
  simp [SentIn]

theorem sentIn_append_send {w : List Round} {o : Outcome} {i i' : Nat} {g : Nat × Nat} {q : Nat} :
    SentIn (w ++ [.send o i g]) i' q ↔ SentIn w i' q ∨ (i' = i ∧ g.1 ≤ q ∧ q < g.1 + o.transferred g.2) := by
  simp only [SentIn, List.mem_append, List.mem_singleton, Round.send.injEq, or_and_right, exists_or]
  refine or_congr Iff.rfl ⟨?_, ?_⟩
  · rintro ⟨o', g', ⟨rfl, rfl, rfl⟩, h⟩
    exact ⟨rfl, h⟩
  · rintro ⟨rfl, h⟩
    exact ⟨o, g, ⟨rfl, rfl, rfl⟩, h⟩

section
variable {ec : IsaEC k n} {in_ : Vector Ptr k} {out : Vector Ptr n} {mem : Mem} {len : Nat} {disk : Disk}

/-- The encoded cells. -/
def EncodedCells (v : Vector Ptr (k + n)) (w : List Round) (q : Ptr) : Prop :=
  ∃ r, r < k + n ∧ k ≤ r ∧ ∃ p, EncodedIn w p ∧ q = (cell v r).add p

/-- What the rounds so far have done: set the encoded cells, and put the bytes they
sent on the devices. -/
structure Stored (ec : IsaEC k n) (in_ : Vector Ptr k) (out : Vector Ptr n) (mem : Mem) (len : Nat) (disk : Disk)
    (T : Ptr → UInt8) (w : List Round) (s : Mem × List Pwrite) : Prop where
  written : Written mem s.1 (EncodedCells (in_ ++ out) w) T
  kept : ∃ t, Keeps k n (onDisk disk s.2) t ∧
    ∀ i, i < k + n → ∀ q, q < len → SentIn w i q → t i q = encodedStrips ec mem in_ out i q

/-- Data is as at the start, and encoded parity as it is to be. -/
theorem byte_of_written {T : Ptr → UInt8}
    (hT : ∀ r, r < k + n → ∀ p, p < len → T ((cell (in_ ++ out) r).add p) = encodedStrips ec mem in_ out r p) {t : Mem}
    {D : Ptr → Prop} (ht : Written mem t D T) {i q : Nat} (hi : i < k + n) (hq : q < len)
    (h : k ≤ i → D ((cell (in_ ++ out) i).add q)) :
    stripByte t (in_ ++ out) i q = encodedStrips ec mem in_ out i q := by
  by_cases hD : D ((cell (in_ ++ out) i).add q)
  · rw [stripByte, byteAt, ht.set _ hD, Option.getD_some, hT i hi q hq]
  · have hik : i < k := Nat.not_le.1 fun hc => hD (h hc)
    rw [encodedStrips, if_pos hik, stripByte, ht.byteAt_frame hD, stripByte]

theorem round_stored (hkn : k + n ≤ 256) (hM : 0 < ec.maxSize) (hlen : len ≤ strip_offset)
    (hs : Strips mem (in_ ++ out) len) {T : Ptr → UInt8}
    (hT : ∀ r, r < k + n → ∀ p, p < len → T ((cell (in_ ++ out) r).add p) = encodedStrips ec mem in_ out r p)
    {w : List Round} {a : Round} (ha : a.Fits k n ec.maxSize len)
    (hfirst : ∀ o i g, a = .send o i g → k ≤ i → ∀ q, g.1 ≤ q → q < g.1 + g.2 → EncodedIn w q)
    {s : Mem × List Pwrite} (h : Stored ec in_ out mem len disk T w s) :
    Returns (a.exec ec in_ out s) (Stored ec in_ out mem len disk T (w ++ [a])) := by
  cases a with
  | encode g =>
    obtain ⟨hin, hlt, hdvd⟩ := ha
    refine (encodeSegment_spec hM hs hlt hin hdvd hT h.written).bind fun t ht => returns_some ⟨?_, ?_⟩
    · refine (h.written.trans ht).congr fun q => ?_
      simp only [EncodedCells, encodedIn_append_encode]
      constructor
      · rintro (⟨r, hr, hk, p, hp, rfl⟩ | ⟨r, hr, hk, p, h1, h2, rfl⟩)
        · exact ⟨r, hr, hk, p, .inl hp, rfl⟩
        · exact ⟨r, hr, hk, p, .inr ⟨h1, h2⟩, rfl⟩
      · rintro ⟨r, hr, hk, p, hp | ⟨h1, h2⟩, rfl⟩
        · exact .inl ⟨r, hr, hk, p, hp, rfl⟩
        · exact .inr ⟨r, hr, hk, p, h1, h2, rfl⟩
    · obtain ⟨t', hkeeps, hsent⟩ := h.kept
      exact ⟨t', hkeeps, fun i hi q hq hw => hsent i hi q hq (sentIn_append_encode.1 hw)⟩
  | send o i g =>
    obtain ⟨hi, hin⟩ := ha
    obtain ⟨t, hkeeps, hsent⟩ := h.kept
    -- the transfer, as the store sees it
    have hvalid : Valid s.1 (cell (advance in_ g.1 ++ advance out g.1) i) g.2 := fun p hp => by
      rw [advance_append, cell_advance hi, Ptr.add_add]
      exact h.written.isSome (hs.valid i hi _ (by omega))
    have hslot : Transfer.InSlot ⟨o, advance in_ g.1, advance out g.1, g.2, g.1, s.1, i⟩ :=
      ⟨hi, hvalid, Nat.le_trans hin hlen⟩
    refine (put_refines hkn disk _ s.2 t hkeeps hslot).bind fun log hlog => returns_some ⟨?_, _, hlog, ?_⟩
    · exact h.written.congr fun q => by simp only [EncodedCells, encodedIn_append_send]
    · intro i' hi' q hq hw
      change Store.put _ t i' q = _
      unfold Store.put
      split
      · rename_i hcov
        obtain ⟨rfl, h1, h2⟩ := hcov
        dsimp only at h1 h2 ⊢
        rw [advance_append, stripByte_advance hi', Nat.add_sub_cancel' h1]
        have hmoved := transferred_le o g.2
        exact byte_of_written hT h.written hi' hq fun hk => ⟨_, hi', hk, q, hfirst o _ g rfl hk q h1 (by omega), rfl⟩
      · rename_i hcov
        exact hsent i' hi' q hq ((sentIn_append_send.1 hw).resolve_right hcov)

/-- **What is sent is stored.** -/
theorem rounds_store (hkn : k + n ≤ 256) (hM : 0 < ec.maxSize) (hlen : len ≤ strip_offset)
    (hs : Strips mem (in_ ++ out) len) {w : List Round} (hw : ∀ a ∈ w, a.Fits k n ec.maxSize len) (hfirst : EncodesFirst k w)
    (disk : Disk) :
    Returns (run (Round.exec ec in_ out) w (mem, [])) fun s =>
      ∀ i, i < k + n → ∀ q, q < len → SentIn w i q → Store.of k (onDisk disk s.2) i q = encodedStrips ec mem in_ out i q := by
  obtain ⟨T, hT⟩ := hs.exists_values (encodedStrips ec mem in_ out)
  refine (Returns.run_prefix (I := Stored ec in_ out mem len disk T) ⟨?_, Store.of k disk, fun _ _ _ _ => rfl, ?_⟩
    fun w₁ a w₂ s hsplit h => ?_).mono fun s h i hi q hq hsent => ?_
  · exact (Written.refl mem T).congr fun q => by simp [EncodedCells, EncodedIn]
  · rintro i - q - ⟨o, g, hmem, -⟩
    exact absurd hmem List.not_mem_nil
  · refine round_stored hkn hM hlen hs hT (hw a (by rw [hsplit]; simp)) (fun o i g ha => ?_) h
    exact hfirst w₁ o i g w₂ (by rw [hsplit, ha])
  · obtain ⟨t, hkeeps, ht⟩ := h.kept
    rw [hkeeps i hi q (by omega), ht i hi q hq hsent]

/-- The strips, as the words of the code. -/
theorem encodedStrips_word (hec : Sound ec) (hi : Intact ec) {r p : Nat} (hr : r < k + n) :
    (⟨encodedStrips ec mem in_ out r p⟩ : GF256) = ec.gen r ⬝ᵥ fun j : Fin k => word mem (in_ ++ out) p j := by
  unfold encodedStrips
  split
  · rename_i hrk
    rw [gen_data hec hrk]
    rfl
  · rename_i hrk
    obtain ⟨l, rfl⟩ := Nat.exists_eq_add_of_le (Nat.not_lt.1 hrk)
    rw [encodedByte, mk_dotBytes, Nat.add_sub_cancel_left, ← tableRows_intact hi (by omega)]
    rfl

end

/-! ## Reading with strips lost -/

section
variable {maxSize thread_num : Nat} {raw ec : IsaEC k n}

/-- **Degraded reads.** All bytes of all strips have been sent, each transfer with
what the system made of it. Later the devices still hold the unlisted strips, and
the requests for these move all bytes. Then reading any segment of whole blocks
and decoding it, with whatever object, gives the data and its parity. -/
theorem degraded_read (hnew : new raw maxSize thread_num = some ec) (hkn : k + n ≤ 256) (hM : 0 < maxSize)
    {in_ : Vector Ptr k} {out : Vector Ptr n} {mem : Mem} {len : Nat} (hlen : len ≤ strip_offset)
    (hs : Strips mem (in_ ++ out) len) {w : List Round} (hw : ∀ a ∈ w, a.Fits k n maxSize len) (hfirst : EncodesFirst k w)
    (hall : ∀ i, i < k + n → ∀ q, q < len → SentIn w i q) :
    Returns (run (Round.exec ec in_ out) w (mem, [])) fun s =>
      ∀ (disk disk₂ : Disk) (err_num : Nat) (err_list : Vector UInt8 err_num), ValidList k n err_list →
        (∀ i, i < k + n → i ∉ erased err_list → ∀ q, q < len →
          Store.of k disk₂ i q = Store.of k (onDisk disk s.2) i q) →
        ∀ (maxSize₂ thread_num₂ : Nat) (ec₂ : IsaEC k n), 0 < maxSize₂ → Reachable maxSize₂ thread_num₂ ec₂ →
          ∀ (o : Nat → Outcome) (matrix : Vector Ptr (k + n)) (size offset : Nat) (mem₂ : Mem),
            offset + size ≤ len → maxSize₂ ∣ size → Strips mem₂ matrix size →
            (∀ i, i < k + n → i ∉ erased err_list → (o i).transferred size = size) →
            Returns (parallelReadSsd o matrix size offset disk₂ mem₂) fun r =>
              Returns (decodePtr ec₂ matrix err_list size r.1) fun r' => ∀ i, i < k + n → ∀ p, p < size →
                stripByte r'.2.1 matrix i p = encodedStrips ec mem in_ out i (offset + p) := by
  have hf := new_fresh hnew
  obtain rfl := hf.maxSize_eq
  obtain ⟨s, hrun, -⟩ := rounds_store hkn hM hlen hs hw hfirst fun _ _ => 0
  refine ⟨s, hrun, fun disk disk₂ err_num err_list hl hkept maxSize₂ thread_num₂ ec₂ hM₂ hreach o matrix size offset
    mem₂ hin hdvd hm hread => ?_⟩
  have hdisk := (rounds_store hkn hM hlen hs hw hfirst disk).of_eq hrun
  obtain ⟨hec₂, hmax₂, -⟩ := hreach.sound
  have hr := hl.recoverable hkn hec₂
  have hgen : ∀ r, r < k + n → ec₂.gen r = ec.gen r := fun r hr => (hec₂ r hr).trans (hf.sound r hr).symm
  refine (parallelReadSsd_spec hm disk₂).mono fun r hread₂ => ?_
  obtain ⟨-, hbytes⟩ := hread₂
  have hmr : Strips r.1 matrix size := ⟨fun i hi p hp => by rw [hbytes i hi p hp]; rfl, hm.disj⟩
  -- the unlisted strips have been read as they were sent
  have hword : HoldsWord ec₂.gen r.1 matrix size (fun i => i ∈ erased err_list) fun p j =>
      word mem (in_ ++ out) (offset + p) j := by
    intro i hi hiE p hp
    rw [hgen i hi, ← encodedStrips_word hf.sound hf.intact hi, ← hdisk i hi _ (by omega) (hall i hi _ (by omega)),
      ← hkept i hi hiE _ (by omega), word, stripByte, byteAt, hbytes i hi p hp, hread i hi hiE, if_pos hp,
      position_eq hkn hi (by omega), position, Store.of, position, Nat.add_assoc]
    rfl
  refine (decodePtr_spec hec₂ (hmax₂ ▸ hM₂) hl hr hmr (hmax₂ ▸ hdvd)).mono fun r' hdec i hi p hp => ?_
  obtain ⟨-, -, hw'⟩ := hdec
  have hdone := decode_holds hr hmr hword hw' i hi id p hp
  rw [hgen i hi, ← encodedStrips_word hf.sound hf.intact hi] at hdone
  exact congrArg GF256.byte hdone

/-- A data and a parity strip of one byte. The device of the data strip is wiped, and
cannot be opened. -/
theorem degraded_read_one : ∃ ec : IsaEC 1 1, new default 1 4 = some ec ∧
    Returns (run (Round.exec ec (ownBuffers 0 1) (ownBuffers 1 1))
      [.send (.moved 1) 0 (0, 1), .encode (0, 1), .send (.moved 1) 1 (0, 1)] (#[#[5], #[0]], [])) fun s =>
      Returns (@parallelReadSsd 1 1 (fun i => if i = 0 then .noOpen else .moved 1) (ownBuffers 0 2) 1 0
        (fun dev x => if dev = .ssd2 then 0 else onDisk (fun _ _ => 0) s.2 dev x) #[#[9], #[9]]) fun r =>
        Returns (decodePtr ec (ownBuffers 0 2) #v[0] 1 r.1) fun r' => ∀ i, i < 1 + 1 → ∀ p, p < 1 →
          stripByte r'.2.1 (ownBuffers 0 2) i p =
            encodedStrips ec #[#[5], #[0]] (ownBuffers 0 1) (ownBuffers 1 1) i (0 + p) := by
  obtain ⟨ec, he⟩ := new_isSome (default : IsaEC 1 1) 1 4 (by decide)
  let w : List Round := [.send (.moved 1) 0 (0, 1), .encode (0, 1), .send (.moved 1) 1 (0, 1)]
  have hfits : ∀ a ∈ w, a.Fits 1 1 1 1 := by simp [w, Round.Fits]
  have hfirst : EncodesFirst 1 w := by
    intro w₁ o i g w₂ h hi q h1 h2
    rcases w₁ with _ | ⟨a, _ | ⟨b, _ | ⟨c, w₁⟩⟩⟩
    · simp only [w, List.nil_append, List.cons.injEq, Round.send.injEq] at h
      omega
    · simp [w] at h
    · simp only [w, List.cons_append, List.nil_append, List.cons.injEq, Round.send.injEq] at h
      obtain ⟨-, rfl, ⟨-, -, rfl⟩, -⟩ := h
      exact ⟨(0, 1), by simp, h1, h2⟩
    · exact absurd (congrArg List.length h) (by simp [w])
  have hsent : ∀ i, i < 1 + 1 → ∀ q, q < 1 → SentIn w i q := fun i hi q hq =>
    ⟨.moved 1, (0, 1), by obtain rfl | rfl : i = 0 ∨ i = 1 := by omega
                          all_goals simp [w], Nat.zero_le q, hq⟩
  have hl : ValidList 1 1 #v[(0 : UInt8)] := ⟨by decide, by decide⟩
  have hparity : ∀ i, i < 1 + 1 → i ∉ erased #v[(0 : UInt8)] → i = 1 := by decide
  refine ⟨ec, he, (degraded_read he (by decide) (by decide) (by decide)
    (show Strips #[#[5], #[0]] (ownBuffers 0 1 ++ ownBuffers 1 1) 1 by decide) hfits hfirst hsent).mono fun s h => ?_⟩
  refine h (fun _ _ => 0) _ 1 #v[0] hl (fun i hi hiE q hq => ?_) 1 4 ec (by decide) (new_reachable he) _ (ownBuffers 0 2) 1 0
    #[#[9], #[9]] (by decide) (by decide) (by decide) fun i hi hiE => ?_
  · obtain rfl := hparity i hi hiE
    rfl
  · obtain rfl := hparity i hi hiE
    rfl

/-! ## Losing a device -/

/-- How many strips the device holds. -/
def Device.strips (k n : Nat) : Device → Nat
  | .ssd1 => k / 2
  | .ssd2 => k - k / 2
  | .ssd3 => n

/-- The strips on the other devices. -/
def elsewhere (k n : Nat) (dev : Device) : Finset Nat := (Finset.range (k + n)).filter fun i => ¬ (place k i).1 = dev

theorem card_elsewhere (k n : Nat) (dev : Device) : (elsewhere k n dev).card + dev.strips k n = k + n := by
  have hcard : ∀ lo hi, (∀ i, i < k + n → ((place k i).1 = dev ↔ lo ≤ i ∧ i < hi)) → lo ≤ hi → hi ≤ k + n →
      (elsewhere k n dev).card + (hi - lo) = k + n := by
    intro lo hi h h1 h2
    have hsplit := Finset.card_filter_add_card_filter_not (s := Finset.range (k + n)) fun i => (place k i).1 = dev
    have hon : (Finset.range (k + n)).filter (fun i => (place k i).1 = dev) = Finset.Ico lo hi := by
      ext i
      rw [Finset.mem_filter, Finset.mem_range, Finset.mem_Ico]
      constructor
      · rintro ⟨hi, hdev⟩
        exact (h i hi).1 hdev
      · intro hi
        exact ⟨by omega, (h i (by omega)).2 hi⟩
    rw [hon, Nat.card_Ico, Finset.card_range] at hsplit
    unfold elsewhere
    omega
  cases dev with
  | ssd1 =>
    refine hcard 0 (k / 2) (fun i _ => ?_) (Nat.zero_le _) (by omega)
    rcases place_cases k i with ⟨h1, e⟩ | ⟨h1, h2, e⟩ | ⟨h1, e⟩ <;> simp [e] <;> omega
  | ssd2 =>
    refine hcard (k / 2) k (fun i _ => ?_) (by omega) (by omega)
    rcases place_cases k i with ⟨h1, e⟩ | ⟨h1, h2, e⟩ | ⟨h1, e⟩ <;> simp [e] <;> omega
  | ssd3 =>
    have h := hcard k (k + n) (fun i hi => ?_) (by omega) (Nat.le_refl _)
    · rwa [Nat.add_sub_cancel_left] at h
    · rcases place_cases k i with ⟨h1, e⟩ | ⟨h1, h2, e⟩ | ⟨h1, e⟩ <;> simp [e] <;> omega

/-- Strips with any contents. -/
theorem exists_strips {c L : Nat} {mem : Mem} {v : Vector Ptr c} (hs : Strips mem v L) (val : Nat → Nat → UInt8) :
    ∃ mem', Strips mem' v L ∧ ∀ r, r < c → ∀ p, p < L → stripByte mem' v r p = val r p := by
  obtain ⟨T, hT⟩ := hs.exists_values val
  obtain ⟨mem', h⟩ := @exists_written mem (fun q => ∃ r, r < c ∧ ∃ p, p < L ∧ q = (cell v r).add p) (by
    rintro _ ⟨r, hr, p, hp, rfl⟩
    exact hs.valid r hr p hp) T
  refine ⟨mem', hs.of_isSome fun q => h.isSome, fun r hr p hp => ?_⟩
  rw [stripByte, byteAt, h.set _ ⟨r, hr, p, hp, rfl⟩, Option.getD_some, hT r hr p hp]

/-- **Losing a device.** The strips on the other two devices determine all strips
exactly when the device holds at most `n`. -/
theorem device_loss_iff (hnew : new raw maxSize thread_num = some ec) (hkn : k + n ≤ 256) (hM : 0 < maxSize) {size : Nat}
    (hpos : 0 < size) (hdvd : maxSize ∣ size) (hlt : size < 2 ^ 31) {in_ : Vector Ptr k} {out : Vector Ptr n} {mem : Mem}
    (hs : Strips mem (in_ ++ out) size) (dev : Device) :
    (∀ mem₁ mem₂, Strips mem₁ (in_ ++ out) size → Strips mem₂ (in_ ++ out) size →
      Returns (encodePtr ec in_ out size mem₁) fun r₁ => Returns (encodePtr ec in_ out size mem₂) fun r₂ =>
        SameOutside r₁.1 r₂.1 (in_ ++ out) size (fun i => (place k i).1 = dev) →
          SameOutside r₁.1 r₂.1 (in_ ++ out) size fun _ => False) ↔
      dev.strips k n ≤ n := by
  have hf := new_fresh hnew
  obtain rfl := hf.maxSize_eq
  have hcard := card_elsewhere k n dev
  have helse : ∀ r, r ∈ elsewhere k n dev ↔ r < k + n ∧ ¬ (place k r).1 = dev := fun r => by
    rw [elsewhere, Finset.mem_filter, Finset.mem_range]
  have hword : ∀ t, Strips t (in_ ++ out) size → Returns (encodePtr ec in_ out size t) fun r => ∀ i, i < k + n →
      ∀ p, p < size → word r.1 (in_ ++ out) p i = ec.gen i ⬝ᵥ fun j : Fin k => word t (in_ ++ out) p j := fun t ht =>
    (encodePtr_mul ec hM ht hdvd hlt).mono fun r ⟨_, hr⟩ i hi p hp =>
      encode_holds hf.sound hf.intact ht (Nat.le_refl _) hr i hi id p hp
  constructor
  · intro h
    by_contra hgt
    -- data that does not show on the other devices
    obtain ⟨d, hd, hzero⟩ := Mds.exists_hidden ec.gen (S := elsewhere k n dev) (by rw [Fintype.card_fin]; omega)
    obtain ⟨j, hj⟩ := Function.ne_iff.1 hd
    obtain ⟨mem₁, hs₁, hval₁⟩ := exists_strips hs fun _ _ => 0
    obtain ⟨mem₂, hs₂, hval₂⟩ := exists_strips hs fun r _ => if hr : r < k then (d ⟨r, hr⟩).byte else 0
    obtain ⟨r₁, hr₁, r₂, hr₂, hsame⟩ := h mem₁ mem₂ hs₁ hs₂
    have hdata₁ : ∀ p, p < size → (fun j : Fin k => word mem₁ (in_ ++ out) p j) = 0 := fun p hp => by
      funext i
      rw [word, hval₁ i (by omega) p hp]
      rfl
    have hdata₂ : ∀ p, p < size → (fun j : Fin k => word mem₂ (in_ ++ out) p j) = d := fun p hp => by
      funext i
      rw [word, hval₂ i (by omega) p hp, dif_pos i.isLt]
    have hw₁ : ∀ i, i < k + n → ∀ p, p < size → word r₁.1 (in_ ++ out) p i = 0 := fun i hi p hp => by
      rw [(hword mem₁ hs₁).of_eq hr₁ i hi p hp, hdata₁ p hp, dotProduct_zero]
    have hw₂ : ∀ i, i < k + n → ∀ p, p < size → word r₂.1 (in_ ++ out) p i = ec.gen i ⬝ᵥ d := fun i hi p hp => by
      rw [(hword mem₂ hs₂).of_eq hr₂ i hi p hp, hdata₂ p hp]
    have hall := hsame (fun r hr hdev p hp => congrArg GF256.byte ?_) j (by omega) id 0 hpos
    · have hbyte := hw₂ j (by omega) 0 hpos
      rw [gen_data hf.sound j.isLt, word, hall] at hbyte
      exact hj (hbyte.symm.trans (hw₁ j (by omega) 0 hpos))
    · exact (hw₂ r hr p hp).trans ((hzero r ((helse r).2 ⟨hr, hdev⟩)).trans (hw₁ r hr p hp).symm)
  · intro hle mem₁ mem₂ hs₁ hs₂
    refine (hword mem₁ hs₁).mono fun r₁ hw₁ => (hword mem₂ hs₂).mono fun r₂ hw₂ hsame r hr _ p hp => ?_
    have hd : (fun j : Fin k => word mem₂ (in_ ++ out) p j) = fun j : Fin k => word mem₁ (in_ ++ out) p j := by
      refine (gen_anyRows hf.sound hkn).eq_of_agree (S := elsewhere k n dev) (fun r hr => ((helse r).1 hr).1)
        (by rw [Fintype.card_fin]; omega) fun i hi => ?_
      obtain ⟨hi, hdev⟩ := (helse i).1 hi
      rw [← hw₁ i hi p hp, ← hw₂ i hi p hp]
      exact congrArg GF256.mk (hsame i hi hdev p hp)
    exact congrArg GF256.byte ((hw₂ r hr p hp).trans ((congrArg _ hd).trans (hw₁ r hr p hp).symm))

/-- Of two data strips each device holds one, so that one parity strip is enough. -/
theorem device_loss_iff_two : ∃ ec : IsaEC 2 1, new default 1 4 = some ec ∧
    ((∀ mem₁ mem₂, Strips mem₁ (ownBuffers 0 2 ++ ownBuffers 2 1) 1 → Strips mem₂ (ownBuffers 0 2 ++ ownBuffers 2 1) 1 →
      Returns (encodePtr ec (ownBuffers 0 2) (ownBuffers 2 1) 1 mem₁) fun r₁ =>
        Returns (encodePtr ec (ownBuffers 0 2) (ownBuffers 2 1) 1 mem₂) fun r₂ =>
          SameOutside r₁.1 r₂.1 (ownBuffers 0 2 ++ ownBuffers 2 1) 1 (fun i => (place 2 i).1 = .ssd1) →
            SameOutside r₁.1 r₂.1 (ownBuffers 0 2 ++ ownBuffers 2 1) 1 fun _ => False) ↔
      Device.ssd1.strips 2 1 ≤ 1) := by
  obtain ⟨ec, h⟩ := new_isSome (default : IsaEC 2 1) 1 4 (by decide)
  exact ⟨ec, h, device_loss_iff h (by decide) (by decide) (by decide) (by decide) (by decide)
    (show Strips #[#[5], #[6], #[0]] (ownBuffers 0 2 ++ ownBuffers 2 1) 1 by decide) .ssd1⟩

end

end ErasureCode.Ssd
