import ModernLevelDB.Wal.WalReadback
import Mathlib.Data.List.Chain

/-! # Reading any bytes as a log

Whatever a file holds, every call of `ReadNext` comes to an end, and the records that a reader returns
are chains of undamaged fragments that follow one another in the file. -/
namespace ModernLevelDB
set_option autoImplicit false

variable {extend : CrcExtend}

namespace WalReader

/-! ## The loops come to an end -/

theorem fillBody_less (s s' : SequentialFile × Bytes) (h : fillBody s = .inl s') :
    walBlockSize - s'.2.length < walBlockSize - s.2.length := by
  unfold fillBody at h
  dsimp only at h
  split at h
  · split at h
    · cases h
    · next hroom hchunk =>
      cases h
      have hpos := List.length_pos_iff.mpr hchunk
      rw [List.length_append]
      omega
  · cases h

theorem fillLoop_ends (file : SequentialFile) :
    Loop.Ends fillBody (file, []) (fillLoop (walBlockSize + 1) file []) :=
  Loop.ends_run fillBody_less _ (Nat.lt_succ_of_le (Nat.sub_le _ _))

theorem unread_load (r : WalReader) :
    (if r.blockPosition == r.block.length then r.fillBlock else r).unread = r.unread := by
  by_cases hfilled : r.blockPosition = r.block.length
  · obtain ⟨file, hfill, hfile⟩ := fillLoop_spec (walBlockSize + 1) r.file [] walBlockSize
      (by simp) (by omega)
    rw [if_pos (beq_iff_eq.mpr hfilled)]
    unfold fillBlock unread
    rw [hfill]
    simp only [hfile, hfilled, List.nil_append, List.length_take, List.length_drop]
    omega
  · rw [if_neg (by simpa using hfilled)]

theorem decodePhysical_less (extend : CrcExtend) {r : WalReader}
    (h : walHeaderSize ≤ r.block.length - r.blockPosition) :
    (decodePhysical extend r).2.unread < r.unread := by
  have hseven : walHeaderSize = 7 := rfl
  have hmove : ∀ size, 0 < size →
      { r with blockPosition := r.blockPosition + size }.unread < r.unread := by
    intro size hsize
    unfold unread
    dsimp only
    omega
  unfold decodePhysical
  dsimp only
  rcases decodeWalFragment_cases extend (r.block.drop r.blockPosition) with
    ⟨failure, hd, hskip⟩ | ⟨failure, hd, _, hskip, _⟩ | hd | ⟨type, payload, hd, _⟩
  · rw [hd]
    refine hmove _ ?_
    rw [hskip, Option.getD_none]
    omega
  · rw [hd]
    refine hmove _ ?_
    rw [hskip, Option.getD_some]
    omega
  · rw [hd]
    unfold unread
    dsimp only
    omega
  · rw [hd]
    exact hmove _ (by omega)

/-- The bytes left, and a position behind the block that the next round puts right. -/
def physicalMeasure (r : WalReader) : Nat :=
  2 * r.unread + if r.block.length < r.blockPosition then 1 else 0

/-- What a round takes from the `n` bytes left, and what the read takes at the end. -/
theorem readPhysicalBody_keeps (extend : CrcExtend) (n : Nat) :
    Loop.Keeps (readPhysicalBody extend) physicalMeasure (fun r => r.unread ≤ n)
      (fun result => ∀ read ∈ result.1, result.2.unread < n) := by
  intro r hn
  have hunread := unread_load r
  generalize hbody : readPhysicalBody extend r = next
  unfold readPhysicalBody at hbody
  dsimp only at hbody
  split at hbody
  · exact .inr ⟨_, hbody.symm, by simp⟩
  · generalize hload : (if r.blockPosition == r.block.length then r.fillBlock else r) = loaded at *
    split at hbody
    · exact .inr ⟨_, hbody.symm, by simp⟩
    · next hblock =>
      have hlen := List.length_pos_iff.mpr hblock
      split at hbody
      · -- A reader that loaded a block stands at its front.
        have hplace : loaded.blockPosition < loaded.block.length ∨
            loaded = r ∧ r.block.length < r.blockPosition := by
          by_cases hfilled : r.blockPosition = r.block.length
          · rw [if_pos (beq_iff_eq.mpr hfilled)] at hload
            have hzero : loaded.blockPosition = 0 := by rw [← hload]; rfl
            exact .inl (by omega)
          · rw [if_neg (by simpa using hfilled)] at hload
            subst hload
            rcases Nat.lt_or_gt_of_ne hfilled with hlt | hgt
            · exact .inl hlt
            · exact .inr ⟨rfl, hgt⟩
        refine .inl ⟨_, hbody.symm, ?_, ?_⟩
        · unfold unread at hn hunread ⊢
          dsimp only
          omega
        · unfold physicalMeasure
          rw [← hunread]
          unfold unread
          simp only [lt_irrefl, if_false]
          rcases hplace with hlt | ⟨rfl, hlt⟩
          · omega
          · rw [if_pos hlt]
            omega
      · next hheader =>
        have hless := decodePhysical_less extend (r := loaded) (by omega)
        generalize decodePhysical extend loaded = decoded at hbody hless
        obtain ⟨_ | read, r'⟩ := decoded <;> dsimp only at hless
        · refine .inl ⟨r', hbody.symm, by omega, ?_⟩
          unfold physicalMeasure
          split <;> omega
        · exact .inr ⟨_, hbody.symm, fun _ _ => hless.trans_le (hunread.trans_le hn)⟩

theorem readPhysical_run (extend : CrcExtend) (r : WalReader) :
    Loop.Ends (readPhysicalBody extend) r (readPhysical extend (2 * r.unread + 4) r) ∧
      ∀ read ∈ (readPhysical extend (2 * r.unread + 4) r).1,
        (readPhysical extend (2 * r.unread + 4) r).2.unread < r.unread := by
  refine (readPhysicalBody_keeps extend r.unread).run _ le_rfl ?_
  unfold physicalMeasure
  split <;> omega

theorem readNextBody_less (extend : CrcExtend) (r r' : WalReader)
    (h : readNextBody extend r = .inl r') : r'.unread < r.unread := by
  unfold readNextBody at h
  rcases hread : readPhysical extend (2 * r.unread + 4) r with ⟨_ | read, behind⟩
  · rw [hread] at h
    cases h
  · rw [hread] at h
    have hless := (readPhysical_run extend r).2 read (by rw [hread]; rfl)
    rw [hread] at hless
    cases read with
    | corruption error dropped offset => cases h
    | fragment fragment =>
      dsimp only at h
      have hconsumed := consumeFragment_spec behind fragment []
      generalize behind.consumeFragment fragment = consumed at h hconsumed
      cases hconsumed with
      | more same _ =>
        cases h
        unfold unread at hless ⊢
        rw [same.block, same.position, same.file]
        exact hless
      | event _ _ _ => cases h
      | again _ _ _ => cases h

theorem readNext_ends (extend : CrcExtend) (r : WalReader) :
    Loop.Ends (readNextBody extend) r (readNext extend r) := by
  rw [readNext, readNextLoop]
  exact Loop.ends_run (readNextBody_less extend) _ (Nat.lt_succ_self _)

end WalReader

/-! ## Fragments of a file -/

/-- The file holds this fragment, within one block and with a checksum that matches. -/
structure Intact (extend : CrcExtend) (contents : Bytes) (fragment : PhysicalFragment) : Prop where
  block : fragment.offset % walBlockSize + (walHeaderSize + fragment.payload.length) ≤ walBlockSize
  inside : fragment.offset + (walHeaderSize + fragment.payload.length) ≤ contents.length
  type : ((contents.drop fragment.offset).getD 6 0).toNat = fragment.type.code
  size : decodeFixed (((contents.drop fragment.offset).drop 4).take 2) = fragment.payload.length
  payload : ((contents.drop fragment.offset).drop walHeaderSize).take fragment.payload.length =
    fragment.payload
  checksum : walChecksumMatches extend (contents.drop fragment.offset) fragment.payload = true

/-- The second fragment starts where the first one ends, or at the next block when less than a header
is left of this one. -/
def Adjacent (first second : PhysicalFragment) : Prop :=
  second.offset = first.offset + (walHeaderSize + first.payload.length) ∨
    second.offset % walBlockSize = 0 ∧
      first.offset + (walHeaderSize + first.payload.length) < second.offset ∧
      second.offset < first.offset + (walHeaderSize + first.payload.length) + walHeaderSize

theorem Decodes.intact {position : Nat} {contents : Bytes} {fragment : PhysicalFragment}
    (hoffset : fragment.offset = position)
    (h : Decodes extend ((contents.drop position).take (blockLeft position)) fragment.type
      fragment.payload) : Intact extend contents fragment := by
  subst hoffset
  have hfits := h.fits
  have hseven : walHeaderSize = 7 := rfl
  rw [List.length_take, List.length_drop] at hfits
  have hmod : fragment.offset % walBlockSize < walBlockSize := Nat.mod_lt _ (by decide)
  have hleft : walHeaderSize + fragment.payload.length ≤ blockLeft fragment.offset := by omega
  generalize hbytes : contents.drop fragment.offset = bytes at h
  have htake : ∀ n m, n + m ≤ blockLeft fragment.offset →
      ((bytes.take (blockLeft fragment.offset)).drop n).take m = (bytes.drop n).take m := by
    intro n m hle
    rw [List.drop_take, List.take_take, Nat.min_eq_left (by omega)]
  refine ⟨by unfold blockLeft at hleft; omega, by omega, ?_, ?_, ?_, ?_⟩
  · rw [hbytes, ← h.type_eq]
    simp only [List.getD_eq_getElem?_getD]
    rw [List.getElem?_take_of_lt (by omega)]
  · rw [hbytes, ← h.size, htake 4 2 (by omega)]
  · have hpayload := h.payload_eq
    rw [htake _ _ hleft] at hpayload
    rw [hbytes]
    exact hpayload
  · have hchecksum := h.checksum
    unfold walChecksumMatches at hchecksum ⊢
    simp only [List.getD_eq_getElem?_getD] at hchecksum ⊢
    rw [List.getElem?_take_of_lt (by omega), List.take_take, Nat.min_eq_left (by omega)] at hchecksum
    rw [hbytes]
    exact hchecksum

theorem intact_of_mem_layout (position : Nat) (rest : Bytes) : ∀ {contents : Bytes}
    {fragment : PhysicalFragment}, rest = contents.drop position →
    PhysicalRead.fragment fragment ∈ layout extend position rest → fragment.type ≠ .zero →
    Intact extend contents fragment := by
  induction position, rest using layout.induct extend with
  | case1 position =>
    intro contents fragment _ hmem
    rw [layout_nil] at hmem
    cases hmem
  | case2 position rest hrest size h ih =>
    intro contents fragment hdrop hmem hne
    rw [layout_trailer h] at hmem
    exact ih (by rw [hdrop, List.drop_drop]) hmem hne
  | case3 position rest hrest h =>
    intro contents fragment _ hmem
    rw [layout_cutTail h] at hmem
    cases hmem
  | case4 position rest hrest read size h ih =>
    intro contents fragment hdrop hmem hne
    rw [layout_found h] at hmem
    rcases List.mem_cons.mp hmem with heq | hmem
    · obtain ⟨_, _, hoffset, hfragment⟩ := physicalAt_found h
      rw [← heq] at hoffset
      have hdecodes := ((hfragment fragment heq.symm).2 hne).2
      rw [hdrop] at hdecodes
      exact hdecodes.intact hoffset
    · exact ih (by rw [hdrop, List.drop_drop]) hmem hne

/-! ## The order of fragments -/

theorem layout_head {position : Nat} {rest : Bytes} {read : PhysicalRead} {reads : List PhysicalRead}
    (h : layout extend position rest = read :: reads) :
    read.offset = position ∨ read.offset % walBlockSize = 0 ∧ position < read.offset ∧
      read.offset < position + walHeaderSize := by
  have hblock : walBlockSize = 32768 := rfl
  have hseven : walHeaderSize = 7 := rfl
  have hrest : rest ≠ [] := by
    intro hnil
    rw [hnil, layout_nil] at h
    cases h
  cases hat : physicalAt extend position rest with
  | cutTail =>
    rw [layout_cutTail hat] at h
    cases h
  | found found size =>
    rw [layout_found hat] at h
    cases h
    exact .inl (physicalAt_found hat).2.2.1
  | trailer size =>
    obtain ⟨hsize, hshort⟩ := physicalAt_trailer hat
    have hpos := trailer_size_pos hrest hat
    rw [layout_trailer hat] at h
    have hmore : rest.drop size ≠ [] := by
      intro hnil
      rw [hnil, layout_nil] at h
      cases h
    have hlt : size < rest.length := by
      have := List.length_pos_iff.mpr hmore
      rw [List.length_drop] at this
      omega
    have hmod : (position + size) % walBlockSize = 0 := by
      have hleft : size = blockLeft position := by omega
      unfold blockLeft at hleft
      rw [hblock] at hleft ⊢
      omega
    -- At the start of a block there is a header, or the file ends.
    cases hnext : physicalAt extend (position + size) (rest.drop size) with
    | cutTail =>
      rw [layout_cutTail hnext] at h
      cases h
    | found found size' =>
      rw [layout_found hnext] at h
      cases h
      have hoffset := (physicalAt_found hnext).2.2.1
      rw [hoffset]
      exact .inr ⟨hmod, by omega, by omega⟩
    | trailer size' =>
      obtain ⟨hsize', hshort'⟩ := physicalAt_trailer hnext
      have hleft : blockLeft (position + size) = walBlockSize := by
        unfold blockLeft
        rw [hmod]
        rfl
      rw [layout_trailer hnext, List.drop_eq_nil_of_le (by omega), layout_nil] at h
      cases h

theorem layout_adjacent (position : Nat) (rest : Bytes) :
    (layout extend position rest).IsChain (fun first second => ∀ f g, first = .fragment f →
      second = .fragment g → f.type ≠ .zero → Adjacent f g) := by
  induction position, rest using layout.induct extend with
  | case1 position =>
    rw [layout_nil]
    exact .nil
  | case2 position rest hrest size h ih =>
    rw [layout_trailer h]
    exact ih
  | case3 position rest hrest h =>
    rw [layout_cutTail h]
    exact .nil
  | case4 position rest hrest read size h ih =>
    rw [layout_found h]
    cases hnext : layout extend (position + size) (rest.drop size) with
    | nil => exact .singleton _
    | cons next reads =>
      rw [hnext] at ih
      refine .cons_cons ?_ ih
      intro f g hf hg hne
      obtain ⟨_, _, hoffset, hfragment⟩ := physicalAt_found h
      have hsize := ((hfragment f hf).2 hne).1
      rw [hf] at hoffset
      have hhead := layout_head hnext
      rw [hg] at hhead
      change f.offset = position at hoffset
      change g.offset = position + size ∨ g.offset % walBlockSize = 0 ∧
        position + size < g.offset ∧ g.offset < position + size + walHeaderSize at hhead
      unfold Adjacent
      rw [hoffset, ← hsize]
      exact hhead

theorem layout_increasing (position : Nat) (rest : Bytes) :
    (∀ read ∈ layout extend position rest, position ≤ read.offset) ∧
      (layout extend position rest).Pairwise (fun first second => first.offset < second.offset) := by
  induction position, rest using layout.induct extend with
  | case1 position =>
    rw [layout_nil]
    exact ⟨by simp, .nil⟩
  | case2 position rest hrest size h ih =>
    rw [layout_trailer h]
    exact ⟨fun read hmem => le_trans (Nat.le_add_right _ _) (ih.1 read hmem), ih.2⟩
  | case3 position rest hrest h =>
    rw [layout_cutTail h]
    exact ⟨by simp, .nil⟩
  | case4 position rest hrest read size h ih =>
    have hpos := physicalAt_size_pos h
    have hoffset := (physicalAt_found h).2.2.1
    rw [layout_found h]
    refine ⟨?_, .cons ?_ ih.2⟩
    · intro found hmem
      rcases List.mem_cons.mp hmem with rfl | hmem
      · omega
      · have := ih.1 found hmem
        omega
    · intro found hmem
      have := ih.1 found hmem
      omega

/-! ## Records are chains of fragments -/

/-- A full fragment, or a first, some middle ones and a last. -/
def RecordTypes (chain : List PhysicalFragment) : Prop :=
  (∃ fragment, chain = [fragment] ∧ fragment.type = .full) ∨
    ∃ first middles last, chain = first :: middles ++ [last] ∧ first.type = .first ∧
      (∀ middle ∈ middles, middle.type = .middle) ∧ last.type = .last

def chainData (chain : List PhysicalFragment) : Bytes := chain.flatMap PhysicalFragment.payload

/-- The fragments of the record under way. -/
def OpenChain (underway : Option (Bytes × Nat)) (chain : List PhysicalFragment) : Prop :=
  match underway with
  | none => chain = []
  | some (data, start) => ∃ first middles, chain = first :: middles ∧ first.type = .first ∧
      (∀ middle ∈ middles, middle.type = .middle) ∧ data = chainData chain ∧ start = first.offset

theorem not_record_of_abandoned {reason : String} {underway : Option (Bytes × Nat)} {data : Bytes}
    {offset : Nat} : WalReadEvent.record data offset ∉ abandoned reason underway := by
  unfold abandoned
  split
  · split <;> simp
  · simp

/-- Every record comes from fragments that follow one another in the sequence. -/
theorem record_of_assemble {whole : List PhysicalRead} {data : Bytes} {offset : Nat}
    (reads : List PhysicalRead) : ∀ (underway : Option (Bytes × Nat)) (before : List PhysicalRead)
    (chain : List PhysicalFragment), whole = before ++ chain.map .fragment ++ reads →
    OpenChain underway chain → WalReadEvent.record data offset ∈ assemble underway reads →
    ∃ record, RecordTypes record ∧ record.map .fragment <:+: whole ∧ data = chainData record ∧
      record.head?.map PhysicalFragment.offset = some offset := by
  induction reads with
  | nil =>
    intro underway before chain _ _ hmem
    cases underway <;> cases hmem
  | cons read reads ih =>
    intro underway before chain hwhole hopen hmem
    -- What was under way is passed, and the search goes on behind this fragment.
    have hpassed := ih none (before ++ chain.map .fragment ++ [read]) [] (by simp [hwhole]) rfl
    cases read with
    | corruption error dropped position =>
      cases underway with
      | none =>
        rcases List.mem_cons.mp hmem with heq | hmem
        · cases heq
        · exact hpassed hmem
      | some under =>
        rcases List.mem_cons.mp hmem with heq | hmem
        · cases heq
        · exact hpassed hmem
    | fragment fragment =>
      obtain ⟨type, payload, start, position⟩ := fragment
      have hnext : whole = before ++
          (chain ++ [PhysicalFragment.mk type payload start position]).map .fragment ++ reads := by
        rw [hwhole]
        simp
      cases type with
      | zero =>
        rw [assemble] at hmem
        rcases List.mem_append.mp hmem with hmem | hmem
        · exact absurd hmem not_record_of_abandoned
        · exact hpassed hmem
      | full =>
        rw [assemble] at hmem
        rcases List.mem_append.mp hmem with hmem | hmem
        · exact absurd hmem not_record_of_abandoned
        · rcases List.mem_cons.mp hmem with heq | hmem
          · cases heq
            refine ⟨[⟨.full, data, offset, position⟩], .inl ⟨_, rfl, rfl⟩, ?_, ?_, rfl⟩
            · refine ⟨before ++ chain.map .fragment, reads, ?_⟩
              rw [hwhole]
              simp
            · simp [chainData]
          · exact hpassed hmem
      | first =>
        rw [assemble] at hmem
        rcases List.mem_append.mp hmem with hmem | hmem
        · exact absurd hmem not_record_of_abandoned
        · refine ih (some (payload, start)) (before ++ chain.map .fragment)
            [⟨.first, payload, start, position⟩] ?_
            ⟨⟨.first, payload, start, position⟩, [], rfl, rfl, by simp, by simp [chainData], rfl⟩ hmem
          rw [hwhole]
          simp
      | middle =>
        cases underway with
        | none =>
          rcases List.mem_cons.mp hmem with heq | hmem
          · cases heq
          · exact hpassed hmem
        | some under =>
          obtain ⟨first, middles, rfl, hfirst, hmiddles, hdata, hstart⟩ := hopen
          refine ih (some (under.1 ++ payload, under.2)) _ _ hnext
            ⟨first, middles ++ [⟨.middle, payload, start, position⟩], rfl, hfirst,
              List.forall_mem_append.mpr ⟨hmiddles, List.forall_mem_singleton.mpr rfl⟩, ?_, hstart⟩ hmem
          rw [hdata]
          simp [chainData]
      | last =>
        cases underway with
        | none =>
          rcases List.mem_cons.mp hmem with heq | hmem
          · cases heq
          · exact hpassed hmem
        | some under =>
          rcases List.mem_cons.mp hmem with heq | hmem
          · obtain ⟨first, middles, rfl, hfirst, hmiddles, hdata, hstart⟩ := hopen
            cases heq
            refine ⟨first :: middles ++ [⟨.last, payload, start, position⟩],
              .inr ⟨first, middles, _, rfl, hfirst, hmiddles, rfl⟩, ⟨before, reads, hnext.symm⟩, ?_, ?_⟩
            · rw [hdata]
              simp [chainData]
            · exact congrArg some hstart.symm
          · exact hpassed hmem

/-! ## The order of records -/

def WalReadEvent.recordOffset : WalReadEvent → Option Nat
  | .record _ offset => some offset
  | .corruption .. => none

theorem recordOffset_abandoned (reason : String) (underway : Option (Bytes × Nat)) :
    (abandoned reason underway).filterMap WalReadEvent.recordOffset = [] := by
  unfold abandoned
  split
  · split <;> rfl
  · rfl

theorem recordOffset_increasing (reads : List PhysicalRead) : ∀ underway : Option (Bytes × Nat),
    reads.Pairwise (fun first second => first.offset < second.offset) →
    (∀ under ∈ underway, ∀ read ∈ reads, under.2 < read.offset) →
    (∀ offset ∈ (assemble underway reads).filterMap WalReadEvent.recordOffset,
      (∃ under ∈ underway, offset = under.2) ∨ ∃ read ∈ reads, offset = read.offset) ∧
    ((assemble underway reads).filterMap WalReadEvent.recordOffset).Pairwise (· < ·) := by
  induction reads with
  | nil =>
    intro underway _ _
    cases underway <;> exact ⟨by simp [assemble], .nil⟩
  | cons read reads ih =>
    intro underway hsorts hunder
    obtain ⟨hread, hreads⟩ := List.pairwise_cons.mp hsorts
    obtain ⟨hmem, hsorted⟩ := ih none hreads (by simp)
    have hlater : ∀ offset ∈ (assemble none reads).filterMap WalReadEvent.recordOffset,
        ∃ later ∈ reads, offset = later.offset := by
      intro offset ho
      rcases hmem offset ho with ⟨_, hnone, _⟩ | hlater
      · cases hnone
      · exact hlater
    -- No record of this fragment: the later ones only.
    have hskip : (∀ offset ∈ (assemble none reads).filterMap WalReadEvent.recordOffset,
        (∃ under ∈ underway, offset = under.2) ∨ ∃ found ∈ read :: reads, offset = found.offset) ∧
        ((assemble none reads).filterMap WalReadEvent.recordOffset).Pairwise (· < ·) := by
      refine ⟨fun offset ho => ?_, hsorted⟩
      obtain ⟨later, hin, heq⟩ := hlater offset ho
      exact .inr ⟨later, List.mem_cons_of_mem _ hin, heq⟩
    -- A record of this offset in front of the later ones.
    have hfront : ∀ start, ((∃ under ∈ underway, start = under.2) ∨ start = read.offset) →
        (∀ offset ∈ start :: (assemble none reads).filterMap WalReadEvent.recordOffset,
          (∃ under ∈ underway, offset = under.2) ∨ ∃ found ∈ read :: reads, offset = found.offset) ∧
        (start :: (assemble none reads).filterMap WalReadEvent.recordOffset).Pairwise (· < ·) := by
      intro start hstart
      refine ⟨?_, .cons ?_ hsorted⟩
      · intro offset ho
        rcases List.mem_cons.mp ho with rfl | ho
        · rcases hstart with hstart | hstart
          · exact .inl hstart
          · exact .inr ⟨read, List.mem_cons_self, hstart⟩
        · exact hskip.1 offset ho
      · intro offset ho
        obtain ⟨later, hin, rfl⟩ := hlater offset ho
        rcases hstart with ⟨under, hu, rfl⟩ | rfl
        · exact hunder under hu later (List.mem_cons_of_mem _ hin)
        · exact hread later hin
    cases read with
    | corruption error dropped position => cases underway <;> exact hskip
    | fragment fragment =>
      obtain ⟨type, payload, start, position⟩ := fragment
      cases type with
      | zero =>
        rw [assemble, List.filterMap_append, recordOffset_abandoned, List.nil_append]
        exact hskip
      | full =>
        rw [assemble, List.filterMap_append, recordOffset_abandoned, List.nil_append]
        exact hfront start (.inr rfl)
      | first =>
        rw [assemble, List.filterMap_append, recordOffset_abandoned, List.nil_append]
        obtain ⟨hmem', hsorted'⟩ := ih (some (payload, start)) hreads (by
          intro under hu later hin
          cases hu
          exact hread later hin)
        refine ⟨fun offset ho => ?_, hsorted'⟩
        rcases hmem' offset ho with ⟨under, hu, rfl⟩ | ⟨later, hin, heq⟩
        · cases hu
          exact .inr ⟨_, List.mem_cons_self, rfl⟩
        · exact .inr ⟨later, List.mem_cons_of_mem _ hin, heq⟩
      | middle =>
        cases underway with
        | none => exact hskip
        | some under =>
          obtain ⟨hmem', hsorted'⟩ := ih (some (under.1 ++ payload, under.2)) hreads (by
            intro found hu later hin
            cases hu
            exact hunder under rfl later (List.mem_cons_of_mem _ hin))
          refine ⟨fun offset ho => ?_, hsorted'⟩
          rcases hmem' offset ho with ⟨found, hu, rfl⟩ | ⟨later, hin, heq⟩
          · cases hu
            exact .inl ⟨under, rfl, rfl⟩
          · exact .inr ⟨later, List.mem_cons_of_mem _ hin, heq⟩
      | last =>
        cases underway with
        | none => exact hskip
        | some under => exact hfront under.2 (.inl ⟨under, rfl, rfl⟩)

/-! ## What a reader does with any file -/

/-- The fragments of one record: of the right types, undamaged, and one right behind the other among
all that the file holds. -/
structure RecordChain (extend : CrcExtend) (contents : Bytes) (chain : List PhysicalFragment) : Prop where
  types : RecordTypes chain
  consecutive : chain.map .fragment <:+: layout extend 0 contents
  intact : ∀ fragment ∈ chain, Intact extend contents fragment
  adjacent : chain.IsChain Adjacent

theorem RecordTypes.ne_zero {chain : List PhysicalFragment} (h : RecordTypes chain) :
    ∀ fragment ∈ chain, fragment.type ≠ .zero := by
  intro fragment hmem hzero
  rcases h with ⟨found, rfl, hfull⟩ | ⟨first, middles, last, rfl, hfirst, hmiddles, hlast⟩
  · cases List.mem_singleton.mp hmem
    rw [hfull] at hzero
    cases hzero
  · rcases List.mem_append.mp hmem with hmem | hmem
    · rcases List.mem_cons.mp hmem with rfl | hmem
      · rw [hfirst] at hzero
        cases hzero
      · rw [hmiddles fragment hmem] at hzero
        cases hzero
    · cases List.mem_singleton.mp hmem
      rw [hlast] at hzero
      cases hzero

theorem recordChain_of_layout {contents : Bytes} {chain : List PhysicalFragment}
    (htypes : RecordTypes chain) (hpart : chain.map .fragment <:+: layout extend 0 contents) :
    RecordChain extend contents chain := by
  have hne := htypes.ne_zero
  refine ⟨htypes, hpart, ?_, ?_⟩
  · intro fragment hmem
    exact intact_of_mem_layout 0 contents rfl
      (hpart.subset (List.mem_map_of_mem hmem)) (hne fragment hmem)
  · have hchain := List.IsChain.infix (layout_adjacent 0 contents) hpart
    rw [List.isChain_map] at hchain
    exact hchain.imp_of_mem_imp
      (fun first second hmem _ hadjacent => hadjacent first second rfl rfl (hne first hmem))

/-- Every call comes to an end. The events of a file are finitely many, they do not depend on how it
is read, each record is a chain of undamaged fragments, and the offsets of records increase. -/
theorem readNext_sound (extend : CrcExtend) (contents : Bytes) :
    (∀ r : WalReader, Loop.Ends WalReader.fillBody (r.file, [])
        (WalReader.fillLoop (walBlockSize + 1) r.file []) ∧
      Loop.Ends (WalReader.readPhysicalBody extend) r
        (WalReader.readPhysical extend (2 * r.unread + 4) r) ∧
      Loop.Ends (WalReader.readNextBody extend) r (WalReader.readNext extend r)) ∧
    ∃ events : List WalReadEvent,
      (∀ (sizes : Nat → Nat) (k : Nat),
        WalReader.readNextAt extend { file := { rest := contents, sizes } } k = events[k]?) ∧
      (∀ data offset, WalReadEvent.record data offset ∈ events →
        ∃ chain, RecordChain extend contents chain ∧ data = chainData chain ∧
          chain.head?.map PhysicalFragment.offset = some offset) ∧
      (events.filterMap WalReadEvent.recordOffset).Pairwise (· < ·) := by
  refine ⟨fun r => ⟨WalReader.fillLoop_ends r.file, (WalReader.readPhysical_run extend r).1,
    WalReader.readNext_ends extend r⟩, assemble none (layout extend 0 contents), ?_, ?_, ?_⟩
  · intro sizes k
    exact WalReader.readNextAt_start extend _ k
  · intro data offset hmem
    obtain ⟨chain, htypes, hpart, hdata, hhead⟩ :=
      record_of_assemble (layout extend 0 contents) none [] [] rfl rfl hmem
    exact ⟨chain, recordChain_of_layout htypes hpart, hdata, hhead⟩
  · exact (recordOffset_increasing _ none (layout_increasing 0 contents).2 (by simp)).2

end ModernLevelDB
