import ModernLevelDB.Lib.Partition
import ModernLevelDB.Wal.WalReopen

/-! # A log with a damaged block

Blocks are read one by one, so damage inside one of them does not change what is found in the others.
A reader of such a log returns records that were written, among them every record without a fragment
in the damaged block. -/
namespace ModernLevelDB
open WalReader
set_option autoImplicit false

variable {extend : CrcExtend}

/-! ## Parts of a list -/

section Parts

variable {α : Type*} {part l₁ l₂ middle : List α}

theorem eq_nil_of_notMem (hsub : part ⊆ l₁) (hnot : ∀ a ∈ part, a ∉ l₁) : part = [] :=
  List.eq_nil_iff_forall_not_mem.mpr (fun a ha => hnot a ha (hsub ha))

theorem infix_left_of_notMem (h : part <:+: l₁ ++ l₂) (hnot : ∀ a ∈ part, a ∉ l₂) : part <:+: l₁ := by
  rcases List.infix_append_iff.mp h with h | h | ⟨front, back, rfl, hfront, hback⟩
  · exact h
  · rw [eq_nil_of_notMem h.subset hnot]
    exact List.nil_infix
  · have hnil := eq_nil_of_notMem hback.subset (fun a ha => hnot a (List.mem_append_right _ ha))
    rw [hnil, List.append_nil]
    exact hfront.isInfix

theorem infix_right_of_notMem (h : part <:+: l₁ ++ l₂) (hnot : ∀ a ∈ part, a ∉ l₁) : part <:+: l₂ := by
  rw [← List.reverse_infix, List.reverse_append] at h
  rw [← List.reverse_infix]
  refine infix_left_of_notMem h (fun a ha => ?_)
  rw [List.mem_reverse] at ha ⊢
  exact hnot a ha

theorem infix_of_notMem_middle (h : part <:+: l₁ ++ (middle ++ l₂)) (hmiddle : middle ≠ [])
    (hnot : ∀ a ∈ part, a ∉ middle) : part <:+: l₁ ∨ part <:+: l₂ := by
  rcases List.infix_append_iff.mp h with h | h | ⟨front, back, rfl, hfront, hback⟩
  · exact .inl h
  · exact .inr (infix_right_of_notMem h hnot)
  -- A part that reaches into the middle has its first element.
  · obtain ⟨m, middle, rfl⟩ := List.exists_cons_of_ne_nil hmiddle
    cases back with
    | nil =>
      rw [List.append_nil]
      exact .inl hfront.isInfix
    | cons b back =>
      obtain ⟨rfl, _⟩ := List.cons_prefix_cons.mp hback
      exact absurd List.mem_cons_self (hnot b (by simp))

end Parts

/-! ## Layouts by blocks -/

variable {position : Nat}

variable {rest : Bytes}

theorem physicalAt_append (h : blockLeft position ≤ rest.length) (more : Bytes) :
    physicalAt extend position (rest ++ more) = physicalAt extend position rest := by
  have hmin : min rest.length (blockLeft position) = blockLeft position := Nat.min_eq_right h
  have hmin' : min (rest ++ more).length (blockLeft position) = blockLeft position := by
    rw [List.length_append]
    omega
  have htake : (rest ++ more).take (blockLeft position) = rest.take (blockLeft position) :=
    List.take_append_of_le_length h
  have hshort : decide (rest.length < blockLeft position) = false := by
    simpa using h
  have hshort' : decide ((rest ++ more).length < blockLeft position) = false := by
    rw [List.length_append]
    simp
    omega
  unfold physicalAt
  simp only [hmin, hmin', htake, hshort, hshort']

theorem blockLeft_le (hrest : rest ≠ []) (hend : (position + rest.length) % walBlockSize = 0) :
    blockLeft position ≤ rest.length := by
  have hpos := List.length_pos_iff.mpr hrest
  have hblock : walBlockSize = 32768 := rfl
  rw [hblock] at hend
  rw [blockLeft, hblock]
  omega

theorem not_cutTail (h : blockLeft position ≤ rest.length) :
    physicalAt extend position rest ≠ .cutTail := by
  have hshort : decide (rest.length < blockLeft position) = false := by
    simpa using h
  unfold physicalAt
  rw [hshort]
  dsimp only [Bool.false_and]
  split
  · exact fun h => nomatch h
  · split <;> exact fun h => nomatch h

theorem layout_append (position : Nat) (rest : Bytes) :
    ∀ more : Bytes, (position + rest.length) % walBlockSize = 0 →
      layout extend position (rest ++ more) =
        layout extend position rest ++ layout extend (position + rest.length) more := by
  induction position, rest using layout.induct extend with
  | case1 position =>
    intro more _
    rw [List.nil_append, layout_nil, List.nil_append, List.length_nil, Nat.add_zero]
  | case2 position rest hrest size h ih =>
    intro more hend
    have hleft := blockLeft_le hrest hend
    have hsize := (physicalAt_trailer h).1
    have hlength : position + size + (rest.drop size).length = position + rest.length := by
      rw [List.length_drop]
      omega
    have happend := h
    rw [← physicalAt_append hleft more] at happend
    rw [layout_trailer h, layout_trailer happend, List.drop_append_of_le_length (by omega),
      ih more (by rw [hlength]; exact hend), hlength]
  | case3 position rest hrest h =>
    intro more hend
    exact absurd h (not_cutTail (blockLeft_le hrest hend))
  | case4 position rest hrest read size h ih =>
    intro more hend
    have hleft := blockLeft_le hrest hend
    have hsize := (physicalAt_found h).2.1
    have hlength : position + size + (rest.drop size).length = position + rest.length := by
      rw [List.length_drop]
      omega
    have happend := h
    rw [← physicalAt_append hleft more] at happend
    rw [layout_found h, layout_found happend, List.drop_append_of_le_length (by omega),
      ih more (by rw [hlength]; exact hend), hlength, List.cons_append]

theorem offset_lt_of_mem_layout (position : Nat) (rest : Bytes) :
    ∀ read ∈ layout extend position rest, read.offset < position + rest.length := by
  induction position, rest using layout.induct extend with
  | case1 position => simp
  | case2 position rest hrest size h ih =>
    intro read hread
    rw [layout_trailer h] at hread
    have hlt := ih read hread
    have hsize := (physicalAt_trailer h).1
    rw [List.length_drop] at hlt
    omega
  | case3 position rest hrest h => simp [layout_cutTail h]
  | case4 position rest hrest found size h ih =>
    intro read hread
    obtain ⟨hheader, hsize, hoffset, _⟩ := physicalAt_found h
    have hpos := physicalAt_size_pos h
    rw [layout_found h] at hread
    rcases List.mem_cons.mp hread with rfl | hread
    · omega
    · have hlt := ih read hread
      rw [List.length_drop] at hlt
      omega

/-! ## The fragments of a log -/

variable {chain : List PhysicalFragment}

def eventsOutside (extend : CrcExtend) (block : Nat) : (position : Nat) → List Bytes → List WalReadEvent
  | _, [] => []
  | position, record :: records =>
      let fragments := (fragment extend (position % walBlockSize) record).1
      let rest := eventsOutside extend block (position + (encodedFragments fragments).length) records
      if (headerOffsets position fragments).any (fun placed => placed.1 / walBlockSize = block) then rest
      else .record record (headerOffset position fragments) :: rest

theorem eventsOutside_sublist (extend : CrcExtend) (block : Nat) (records : List Bytes) :
    ∀ position, (eventsOutside extend block position records).Sublist
      (recordEvents extend position records) := by
  induction records with
  | nil => exact fun _ => .slnil
  | cons record records ih =>
    intro position
    rw [eventsOutside, recordEvents]
    split
    · exact .cons _ (ih _)
    · exact .cons_cons _ (ih _)

theorem fragment_of_mem_log (extend : CrcExtend) (records : List Bytes) : ∀ (position : Nat),
    ∀ read ∈ layout extend position (recordsBytes extend (position % walBlockSize) records),
      ∃ fragment, read = .fragment fragment ∧ fragment.type ≠ .zero := by
  induction records with
  | nil =>
    intro position read hread
    rw [recordsBytes, layout_nil] at hread
    cases hread
  | cons record records ih =>
    intro position read hread
    obtain ⟨chain, hspells, _, hlayout⟩ := layout_record extend position record
    have hend := fragmentsFrom_end extend (record.length + 2) position true record
    rw [recordsBytes, hlayout] at hread
    rcases List.mem_append.mp hread with hread | hread
    · obtain ⟨found, hfound, rfl⟩ := List.mem_map.mp hread
      exact ⟨found, rfl, hspells.types.ne_zero found hfound⟩
    · rw [fragment, ← hend] at hread
      exact ih _ read hread

theorem spells_of_eventsOutside (extend : CrcExtend) (block : Nat) (records : List Bytes) :
    ∀ (position : Nat), ∀ event ∈ eventsOutside extend block position records,
      ∃ data offset chain, event = .record data offset ∧ Spells chain data offset ∧
        (∀ fragment ∈ chain, fragment.offset / walBlockSize ≠ block) ∧ chain.map .fragment <:+:
          layout extend position (recordsBytes extend (position % walBlockSize) records) := by
  induction records with
  | nil =>
    intro position event hevent
    cases hevent
  | cons record records ih =>
    intro position event hevent
    obtain ⟨chain, hspells, hoffsets, hlayout⟩ := layout_record extend position record
    have hend := fragmentsFrom_end extend (record.length + 2) position true record
    have hlater : ∀ event ∈ eventsOutside extend block (position + (encodedFragments
          (fragment extend (position % walBlockSize) record).1).length) records,
        ∃ data offset chain, event = .record data offset ∧ Spells chain data offset ∧
          (∀ fragment ∈ chain, fragment.offset / walBlockSize ≠ block) ∧ chain.map .fragment <:+:
            layout extend position
              (recordsBytes extend (position % walBlockSize) (record :: records)) := by
      intro event hevent
      obtain ⟨data, offset, later, heq, hlater, houtside, hinfix⟩ := ih _ event hevent
      refine ⟨data, offset, later, heq, hlater, houtside, hinfix.trans ?_⟩
      rw [recordsBytes, hlayout, fragment, ← hend]
      exact (List.suffix_append _ _).isInfix
    rw [eventsOutside] at hevent
    split at hevent
    · exact hlater event hevent
    · next hnone =>
      rcases List.mem_cons.mp hevent with rfl | hevent
      · refine ⟨record, _, chain, rfl, hspells, fun found hfound hblock => hnone ?_, ?_⟩
        · have hmem : found.offset ∈ chain.map PhysicalFragment.offset := List.mem_map_of_mem hfound
          rw [hoffsets] at hmem
          obtain ⟨placed, hplaced, heq⟩ := List.mem_map.mp hmem
          exact List.any_eq_true.mpr ⟨placed, hplaced, by rw [heq]; exact decide_eq_true hblock⟩
        · rw [recordsBytes, hlayout]
          exact (List.prefix_append _ _).isInfix
      · exact hlater event hevent

/-! ## Chains of fragments are records -/

variable {event : WalReadEvent} {reads : List PhysicalRead}

theorem mem_assemble_append (h : ∀ underway, event ∈ assemble underway reads)
    (before : List PhysicalRead) :
    ∀ underway, event ∈ assemble underway (before ++ reads) := by
  induction before with
  | nil => exact h
  | cons read before ih =>
    intro underway
    rw [List.cons_append]
    cases read with
    | corruption error dropped offset =>
      cases underway <;> exact List.mem_cons_of_mem _ (ih _)
    | fragment fragment =>
      obtain ⟨type, payload, offset, position⟩ := fragment
      cases type with
      | zero => cases underway <;> exact List.mem_append_right _ (ih _)
      | full =>
        cases underway <;> exact List.mem_append_right _ (List.mem_cons_of_mem _ (ih _))
      | first => cases underway <;> exact List.mem_append_right _ (ih _)
      | middle =>
        cases underway with
        | none => exact List.mem_cons_of_mem _ (ih _)
        | some under => exact ih _
      | last => cases underway <;> exact List.mem_cons_of_mem _ (ih _)

theorem WalReader.Spells.record_mem_assemble {data : Bytes} {offset : Nat}
    (h : Spells chain data offset) (hpart : chain.map .fragment <:+: reads) :
    WalReadEvent.record data offset ∈ assemble none reads := by
  obtain ⟨before, after, rfl⟩ := hpart
  rw [List.append_assoc]
  refine mem_assemble_append (fun underway => ?_) before none
  obtain ⟨events, hevents, _⟩ := h.assembled underway after
  rw [hevents]
  exact List.mem_append_right _ List.mem_cons_self

/-! ## Neighbours in a log -/

variable {contents : Bytes}

/-- A fragment has one place behind another one: where that ends, or at the next block when no header
fits any more. -/
theorem Adjacent.offset_eq {f g g' : PhysicalFragment} (h : Adjacent f g) (h' : Adjacent f g')
    (hg : Intact extend contents g) (hg' : Intact extend contents g') :
    g.offset = g'.offset := by
  have hblock : walBlockSize = 32768 := rfl
  have hseven : walHeaderSize = 7 := rfl
  have hfits := hg.block
  have hfits' := hg'.block
  simp only [Adjacent, hblock, hseven] at h h' hfits hfits'
  omega

theorem Adjacent.lt {f g : PhysicalFragment} (h : Adjacent f g) : f.offset < g.offset := by
  have hseven : walHeaderSize = 7 := rfl
  rcases h with heq | ⟨_, hlt, _⟩ <;> omega

/-- Fragments of a log of which each one is adjacent to the one before stand there one after the
other. -/
theorem prefix_of_adjacent
    (hwhole : ∀ read ∈ layout extend 0 contents, ∃ fragment, read = .fragment fragment ∧
      fragment.type ≠ .zero) (chain : List PhysicalFragment) :
    ∀ {first : PhysicalFragment} {before after : List PhysicalRead},
      layout extend 0 contents = before ++ .fragment first :: after →
      (first :: chain).IsChain Adjacent →
      (∀ fragment ∈ chain, .fragment fragment ∈ layout extend 0 contents) →
      chain.map .fragment <+: after := by
  induction chain with
  | nil => intro _ _ _ _ _ _; exact List.nil_prefix
  | cons second chain ih =>
    intro first before after hlayout hchain hmem
    obtain ⟨hadjacent, hrest⟩ := List.isChain_cons_cons.mp hchain
    have hsecond := hmem second List.mem_cons_self
    have hlater := hadjacent.lt
    have hne : ∀ {fragment : PhysicalFragment}, .fragment fragment ∈ layout extend 0 contents →
        fragment.type ≠ .zero := by
      intro fragment h
      obtain ⟨_, heq, hne⟩ := hwhole _ h
      cases heq
      exact hne
    have hincreasing := (@layout_increasing extend 0 contents).2
    have hneighbours := @layout_adjacent extend 0 contents
    rw [hlayout] at hincreasing hneighbours
    obtain ⟨_, hafter, hbefore⟩ := List.pairwise_append.mp hincreasing
    have hmemAfter : .fragment second ∈ after := by
      rw [hlayout] at hsecond
      rcases List.mem_append.mp hsecond with h | h
      · have hlt : second.offset < first.offset := hbefore _ h _ List.mem_cons_self
        omega
      · rcases List.mem_cons.mp h with heq | h
        · cases heq
          omega
        · exact h
    obtain ⟨next, after, rfl⟩ := List.exists_cons_of_ne_nil (List.ne_nil_of_mem hmemAfter)
    have hnextMem : next ∈ layout extend 0 contents := by
      rw [hlayout]
      simp
    obtain ⟨found, rfl, hfound⟩ := hwhole next hnextMem
    have hfirst : PhysicalRead.fragment first ∈ layout extend 0 contents := by
      rw [hlayout]
      simp
    have hnext : Adjacent first found := by
      have hpair := List.IsChain.right_of_append hneighbours
      exact (List.isChain_cons_cons.mp hpair).1 first found rfl rfl (hne hfirst)
    have hoffset := hadjacent.offset_eq hnext
      (intact_of_mem_layout 0 contents rfl hsecond (hne hsecond))
      (intact_of_mem_layout 0 contents rfl hnextMem hfound)
    rcases List.mem_cons.mp hmemAfter with heq | hbehind
    · cases heq
      have hprefix := @ih second (before ++ [.fragment first]) after (by rw [hlayout]; simp) hrest
        (fun fragment h => hmem fragment (List.mem_cons_of_mem _ h))
      exact List.cons_prefix_cons.mpr ⟨rfl, hprefix⟩
    · have hlt : found.offset < second.offset :=
        (List.pairwise_cons.mp (List.pairwise_cons.mp hafter).2).1 _ hbehind
      omega

theorem infix_of_adjacent
    (hwhole : ∀ read ∈ layout extend 0 contents, ∃ fragment, read = .fragment fragment ∧
      fragment.type ≠ .zero) (hchain : chain.IsChain Adjacent)
    (hmem : ∀ fragment ∈ chain, .fragment fragment ∈ layout extend 0 contents) :
    chain.map .fragment <:+: layout extend 0 contents := by
  cases chain with
  | nil => exact List.nil_infix
  | cons first chain =>
    obtain ⟨before, after, hlayout⟩ := List.append_of_mem (hmem first List.mem_cons_self)
    obtain ⟨rest, hrest⟩ := prefix_of_adjacent hwhole chain hlayout hchain
      (fun fragment h => hmem fragment (List.mem_cons_of_mem _ h))
    exact ⟨before, rest, by rw [hlayout, ← hrest]; simp⟩

/-! ## Damage in one block -/

/-- The bytes of a file were changed inside one block. -/
structure DamagedIn (block : Nat) (contents damaged : Bytes) : Prop where
  length_eq : damaged.length = contents.length
  outside : ∀ i, i / walBlockSize ≠ block → damaged[i]? = contents[i]?

/-- Where the reader comes in the damaged block it decodes the fragment that was written there, a zero
marker or an error. -/
def NoFalseFragment (extend : CrcExtend) (block : Nat) (contents damaged : Bytes) : Prop :=
  ∀ fragment, .fragment fragment ∈ layout extend 0 damaged →
    fragment.offset / walBlockSize = block →
    fragment.type = .zero ∨ .fragment fragment ∈ layout extend 0 contents

/-- The blocks before the damaged one, that block before and after, and the blocks behind it. -/
structure Blocks (block : Nat) (contents damaged : Bytes) where
  before : Bytes
  written : Bytes
  changed : Bytes
  behind : Bytes
  contents_eq : contents = before ++ (written ++ behind)
  damaged_eq : damaged = before ++ (changed ++ behind)
  before_length : before.length = block * walBlockSize
  changed_length : changed.length = written.length
  written_le : written.length ≤ walBlockSize
  full : written.length = walBlockSize ∨ behind = []

variable {block : Nat} {damaged : Bytes}

theorem DamagedIn.eq_of_le (h : DamagedIn block contents damaged)
    (hshort : contents.length ≤ block * walBlockSize) : damaged = contents := by
  refine List.ext_getElem? (fun i => ?_)
  by_cases hi : i / walBlockSize = block
  · have hle : block * walBlockSize ≤ i := by
      rw [← hi]
      exact Nat.div_mul_le_self i walBlockSize
    rw [List.getElem?_eq_none (by rw [h.length_eq]; omega), List.getElem?_eq_none (by omega)]
  · exact h.outside i hi

theorem DamagedIn.blocks (h : DamagedIn block contents damaged)
    (hlong : block * walBlockSize < contents.length) :
    Nonempty (Blocks block contents damaged) := by
  have hbefore : damaged.take (block * walBlockSize) = contents.take (block * walBlockSize) := by
    refine List.ext_getElem? (fun i => ?_)
    rw [List.getElem?_take, List.getElem?_take]
    split
    · next hi => exact h.outside i (Nat.div_lt_of_lt_mul (by rwa [Nat.mul_comm])).ne
    · rfl
  have hbehind : (damaged.drop (block * walBlockSize)).drop walBlockSize =
      (contents.drop (block * walBlockSize)).drop walBlockSize := by
    refine List.ext_getElem? (fun i => ?_)
    rw [List.getElem?_drop, List.getElem?_drop, List.getElem?_drop, List.getElem?_drop]
    refine h.outside _ (fun heq => ?_)
    have hlt := Nat.lt_mul_div_succ (block * walBlockSize + (walBlockSize + i))
      (show 0 < walBlockSize by decide)
    rw [heq, Nat.mul_succ, Nat.mul_comm] at hlt
    omega
  refine ⟨{
    before := contents.take (block * walBlockSize)
    written := (contents.drop (block * walBlockSize)).take walBlockSize
    changed := (damaged.drop (block * walBlockSize)).take walBlockSize
    behind := (contents.drop (block * walBlockSize)).drop walBlockSize
    contents_eq := by rw [List.take_append_drop, List.take_append_drop]
    damaged_eq := by rw [← hbehind, List.take_append_drop, ← hbefore, List.take_append_drop]
    before_length := by rw [List.length_take]; omega
    changed_length := by
      rw [List.length_take, List.length_take, List.length_drop, List.length_drop, h.length_eq]
    written_le := by rw [List.length_take]; omega
    full := ?_ }⟩
  by_cases hfull : walBlockSize ≤ (contents.drop (block * walBlockSize)).length
  · exact .inl (by rw [List.length_take]; omega)
  · exact .inr (List.drop_eq_nil_of_le (by omega))

theorem layout_parts {before written behind : Bytes}
    (hbefore : before.length = block * walBlockSize)
    (hfull : written.length = walBlockSize ∨ behind = []) :
    layout extend 0 (before ++ (written ++ behind)) = layout extend 0 before ++
      (layout extend (block * walBlockSize) written ++
        layout extend (block * walBlockSize + written.length) behind) := by
  rw [layout_append 0 before _ (by rw [hbefore, Nat.zero_add, Nat.mul_mod_left]), Nat.zero_add, hbefore]
  rcases hfull with hfull | rfl
  · rw [layout_append _ written _ (by rw [hfull, ← Nat.succ_mul, Nat.mul_mod_left])]
  · rw [List.append_nil, layout_nil, List.append_nil]

theorem block_of_mem_layout {bytes : Bytes} (hle : bytes.length ≤ walBlockSize)
    {read : PhysicalRead} (h : read ∈ layout extend (block * walBlockSize) bytes) :
    read.offset / walBlockSize = block := by
  have hlow := (layout_increasing (block * walBlockSize) bytes).1 read h
  have hhigh := offset_lt_of_mem_layout (block * walBlockSize) bytes read h
  refine Nat.div_eq_of_lt_le hlow ?_
  rw [Nat.succ_mul]
  omega

theorem layout_full_ne_nil {bytes : Bytes} (hfull : bytes.length = walBlockSize) :
    layout extend (block * walBlockSize) bytes ≠ [] := by
  have hleft : blockLeft (block * walBlockSize) = walBlockSize := by
    rw [blockLeft, Nat.mul_mod_left, Nat.sub_zero]
  have hlarge : walHeaderSize < walBlockSize := by decide
  cases h : physicalAt extend (block * walBlockSize) bytes with
  | trailer size =>
    have hsize := physicalAt_trailer h
    omega
  | cutTail => exact absurd h (not_cutTail (by omega))
  | found read size =>
    rw [layout_found h]
    exact List.cons_ne_nil _ _

namespace Blocks

variable {block : Nat} {contents damaged : Bytes}

theorem layout_contents (b : Blocks block contents damaged) (extend : CrcExtend) :
    layout extend 0 contents = layout extend 0 b.before ++
      (layout extend (block * walBlockSize) b.written ++
        layout extend (block * walBlockSize + b.written.length) b.behind) :=
  (congrArg (layout extend 0) b.contents_eq).trans (layout_parts b.before_length b.full)

theorem layout_damaged (b : Blocks block contents damaged) (extend : CrcExtend) :
    layout extend 0 damaged = layout extend 0 b.before ++
      (layout extend (block * walBlockSize) b.changed ++
        layout extend (block * walBlockSize + b.written.length) b.behind) := by
  have hfull : b.changed.length = walBlockSize ∨ b.behind = [] := by
    rw [b.changed_length]
    exact b.full
  rw [← b.changed_length]
  exact (congrArg (layout extend 0) b.damaged_eq).trans (layout_parts b.before_length hfull)

/-- Every fragment that a reader finds in the damaged file was written. -/
theorem written_of_mem (b : Blocks block contents damaged)
    (hdecode : NoFalseFragment extend block contents damaged)
    {fragment : PhysicalFragment} (hmem : .fragment fragment ∈ layout extend 0 damaged)
    (hne : fragment.type ≠ .zero) : .fragment fragment ∈ layout extend 0 contents := by
  have hfound := hmem
  rw [b.layout_damaged, List.mem_append, List.mem_append] at hmem
  rcases hmem with hmem | hmem | hmem
  · rw [b.layout_contents]
    exact List.mem_append_left _ hmem
  · have hblock := block_of_mem_layout (b.changed_length.trans_le b.written_le) hmem
    exact (hdecode fragment hfound hblock).resolve_left hne
  · rw [b.layout_contents]
    exact List.mem_append_right _ (List.mem_append_right _ hmem)

theorem infix_damaged (b : Blocks block contents damaged) {chain : List PhysicalFragment}
    (hchain : chain.map .fragment <:+: layout extend 0 contents)
    (houtside : ∀ fragment ∈ chain, fragment.offset / walBlockSize ≠ block) :
    chain.map .fragment <:+: layout extend 0 damaged := by
  have hnot : ∀ read ∈ chain.map PhysicalRead.fragment,
      read ∉ layout extend (block * walBlockSize) b.written := by
    intro read hread hmem
    obtain ⟨fragment, hfragment, rfl⟩ := List.mem_map.mp hread
    exact houtside fragment hfragment (block_of_mem_layout b.written_le hmem)
  rw [b.layout_contents] at hchain
  rw [b.layout_damaged]
  have hparts : chain.map .fragment <:+: layout extend 0 b.before ∨ chain.map .fragment <:+:
      layout extend (block * walBlockSize + b.written.length) b.behind := by
    rcases b.full with hfull | hend
    · exact infix_of_notMem_middle hchain (layout_full_ne_nil hfull) hnot
    · rw [hend, layout_nil, List.append_nil] at hchain
      exact .inl (infix_left_of_notMem hchain hnot)
  rcases hparts with hbefore | hbehind
  · exact hbefore.trans (List.prefix_append _ _).isInfix
  · exact hbehind.trans ((List.suffix_append _ _).trans (List.suffix_append _ _)).isInfix

end Blocks

/-! ## What a reader returns -/

def recordsOf (events : List WalReadEvent) : List WalReadEvent :=
  events.filter (fun event => event.recordOffset.isSome)

theorem mem_recordsOf {events : List WalReadEvent} :
    event ∈ recordsOf events ↔ ∃ data offset, event = .record data offset ∧ event ∈ events := by
  rw [recordsOf, List.mem_filter]
  cases event with
  | record data offset =>
    exact ⟨fun h => ⟨data, offset, rfl, h.1⟩, fun ⟨_, _, _, h⟩ => ⟨h, rfl⟩⟩
  | corruption error dropped offset =>
    constructor
    · rintro ⟨_, ⟨⟩⟩
    · rintro ⟨_, _, ⟨⟩, _⟩

def offsetOf (event : WalReadEvent) : Nat := event.recordOffset.getD 0

theorem map_recordsOf (events : List WalReadEvent) :
    (recordsOf events).map offsetOf = events.filterMap WalReadEvent.recordOffset := by
  induction events with
  | nil => rfl
  | cons event events ih =>
    cases event with
    | record data offset => exact congrArg (offset :: ·) ih
    | corruption error dropped offset => exact ih

theorem recordsOf_sorted (extend : CrcExtend) (contents : Bytes) :
    (recordsOf (assemble none (layout extend 0 contents))).Pairwise
      (fun first second => offsetOf first < offsetOf second) := by
  have hsorted := (recordOffset_increasing _ none (@layout_increasing extend 0 contents).2
    (by simp)).2
  rw [← map_recordsOf, List.pairwise_map] at hsorted
  exact hsorted

theorem recordsOf_recordEvents (extend : CrcExtend) (records : List Bytes) : ∀ position : Nat,
    recordsOf (recordEvents extend position records) = recordEvents extend position records := by
  induction records with
  | nil => exact fun _ => rfl
  | cons record records ih => exact fun position => congrArg (_ :: ·) (ih _)

/-- What the reader returns of a damaged log was written. -/
theorem written_of_record {records : List Bytes}
    (b : Blocks block (recordsBytes extend 0 records) damaged)
    (hdecode : NoFalseFragment extend block (recordsBytes extend 0 records) damaged) {data : Bytes}
    {offset : Nat} (h : .record data offset ∈ assemble none (layout extend 0 damaged)) :
    .record data offset ∈ recordEvents extend 0 records := by
  obtain ⟨chain, htypes, hpart, hdata, hhead⟩ :=
    record_of_assemble (layout extend 0 damaged) none [] [] rfl rfl h
  have hchain := recordChain_of_layout htypes hpart
  have hwritten : chain.map .fragment <:+: layout extend 0 (recordsBytes extend 0 records) := by
    refine infix_of_adjacent (fragment_of_mem_log extend records 0) hchain.adjacent ?_
    intro fragment hfragment
    exact b.written_of_mem hdecode (hpart.subset (List.mem_map_of_mem hfragment))
      (htypes.ne_zero fragment hfragment)
  rw [← assemble_log]
  exact Spells.record_mem_assemble ⟨htypes, hdata, hhead⟩ hwritten

/-- A reader of a log with a damaged block returns records of the log in their order, and no record
without a fragment in that block is missing. -/
theorem damaged_block_readback (extend : CrcExtend) (file : FileName) (records : List Bytes)
    (w w' : World) (writer : WalWriter) {contents damaged : Bytes} {block : Nat}
    (hwrite : WalWriter.writeLog extend file records w = (.returned writer, w'))
    (hcontents : w'.disk file = some contents) (hdamage : DamagedIn block contents damaged)
    (hdecode : NoFalseFragment extend block contents damaged) (sizes : Nat → Nat) (fuel : Nat)
    (hfuel : 2 * damaged.length < fuel) :
    (eventsOutside extend block 0 records).Sublist
        (recordsOf (events extend fuel { file := { rest := damaged, sizes } })) ∧
      (recordsOf (events extend fuel { file := { rest := damaged, sizes } })).Sublist
        (recordEvents extend 0 records) := by
  have hlayout := length_layout_le extend 0 damaged
  have hlength := length_assemble_le (layout extend 0 damaged) none
  rw [events_assemble extend fuel (at_start _) rfl (by dsimp only; omega)]
  dsimp only
  obtain rfl : contents = recordsBytes extend 0 records :=
    Option.some.inj (hcontents.symm.trans (writeLog_returned hwrite).1)
  have hsorted := recordsOf_sorted extend (recordsBytes extend 0 records)
  rw [assemble_log, recordsOf_recordEvents] at hsorted
  have hout := eventsOutside_sublist extend block records 0
  by_cases hshort : (recordsBytes extend 0 records).length ≤ block * walBlockSize
  · rw [hdamage.eq_of_le hshort, assemble_log, recordsOf_recordEvents]
    exact ⟨hout, .refl _⟩
  obtain ⟨b⟩ := hdamage.blocks (Nat.lt_of_not_le hshort)
  have hsorted' := recordsOf_sorted extend damaged
  constructor
  · refine Partition.sublist_of_sorted (hsorted.sublist hout) hsorted' (fun event hevent => ?_)
    obtain ⟨data, offset, chain, rfl, hspells, houtside, hchain⟩ :=
      spells_of_eventsOutside extend block records 0 event hevent
    exact mem_recordsOf.mpr
      ⟨data, offset, rfl, hspells.record_mem_assemble (b.infix_damaged hchain houtside)⟩
  · refine Partition.sublist_of_sorted hsorted' hsorted (fun event hevent => ?_)
    obtain ⟨data, offset, rfl, hmem⟩ := mem_recordsOf.mp hevent
    exact written_of_record b hdecode hmem

/-- A record that fills the first block, overwritten by zeros, and one behind it that is returned. -/
theorem damaged_block_readback_zeros :
    let damaged := List.replicate 32768 0 ++ [216, 234, 130, 162, 1, 0, 1, 2]
    let found := recordsOf
      (events (fun crc _ => crc) 70000 { file := { rest := damaged, sizes := fun _ => 5 } })
    [.record [2] 32768].Sublist found ∧
      found.Sublist [.record (List.replicate 32761 7) 0, .record [2] 32768] := by
  have hsecond : [216, 234, 130, 162, 1, 0, 1, 2] = recordsBytes (fun crc _ => crc) 0 [[2]] := rfl
  rw [hsecond]
  generalize (fun crc _ => crc : CrcExtend) = extend
  generalize hzeros : List.replicate 32768 (0 : UInt8) = zeros
  generalize hrecord : List.replicate 32761 (7 : UInt8) = record
  have hzero : zeros.length = 32768 := by rw [← hzeros, List.length_replicate]
  have hlength : record.length = 32761 := by rw [← hrecord, List.length_replicate]
  have hfirst : fragment extend 0 record = ([⟨0, encodeHeader extend .full record, record⟩], 0) := by
    simp [fragment, fragmentsFrom, hlength, walBlockSize, walHeaderSize, selectFragmentType,
      List.take_of_length_le]
  have hnext : (fragment extend 0 [2]).1 = [⟨0, encodeHeader extend .full [2], [2]⟩] := rfl
  have hencoded : (encodedFragments (fragment extend 0 record).1).length = 32768 := by
    simp [hfirst, encodedFragments, length_encoded, hlength, walHeaderSize]
  obtain ⟨writer, w', hwrite, _⟩ : ∃ writer w', WalWriter.writeLog extend (.log 3) [record, [2]]
      { disk := fun _ => none } = (.returned writer, w') ∧ w'.Reliable :=
    (FileM.returns_perform _).bind (fun _ => (WalWriter.returns_addRecord _ _ _).bind fun _ =>
      (WalWriter.returns_addRecord _ _ _).bind fun _ => FileM.returns_pure _) _ (fun _ => rfl)
  have hdamage : DamagedIn 0 (recordsBytes extend 0 [record, [2]])
      (zeros ++ recordsBytes extend 0 [[2]]) := by
    rw [recordsBytes, show (fragment extend 0 record).2 = 0 by rw [hfirst]]
    refine ⟨by rw [List.length_append, List.length_append, hencoded, hzero], fun i hi => ?_⟩
    have hle : 32768 ≤ i := by
      by_contra hlt
      exact hi (Nat.div_eq_of_lt (Nat.lt_of_not_le hlt))
    rw [List.getElem?_append_right (by omega), List.getElem?_append_right (by omega), hencoded, hzero]
  have hmarker : physicalAt extend 0 (zeros ++ recordsBytes extend 0 [[2]]) =
      .found (.fragment ⟨.zero, [], 0, 0⟩) zeros.length := by
    rw [physicalAt_block _ _ hzero (by rw [hzero]; decide), ← hzeros,
      decodeWalFragment_zeros _ (show walHeaderSize ≤ 32768 by decide)]
    rfl
  have hread := damaged_block_readback extend (.log 3) [record, [2]] _ _ _ hwrite
    (writeLog_returned hwrite).1 hdamage (fun fragment hmem hoffset => ?_) (fun _ => 5) 70000
    (by rw [List.length_append, hzero]; exact (by decide : 2 * (32768 + 8) < 70000))
  · simp only [eventsOutside, recordEvents, Nat.zero_mod, hencoded, Nat.zero_add,
      show 32768 % walBlockSize = 0 from rfl, hnext] at hread
    simpa [hfirst, headerOffsets, headerOffset, walBlockSize] using hread
  · rw [layout_found hmarker] at hmem
    rcases List.mem_cons.mp hmem with hmem | hmem
    · cases hmem
      exact .inl rfl
    · have hle : 0 + zeros.length ≤ fragment.offset := (layout_increasing _ _).1 _ hmem
      rw [show walBlockSize = 32768 from rfl] at hoffset
      omega

end ModernLevelDB
