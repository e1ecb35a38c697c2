import ModernLevelDB.Engine.TableCache

/-! # Hints and evictions

A hint remembers a generation that was loaded before its table was looked up. An `Evict` erases first
and then advances the generation, so that whoever loads the new generation loads another one than all
samples that were there at the erasure; if the generation cannot advance, the gate is closed. -/
namespace ModernLevelDB.TableCache
set_option autoImplicit false

variable {C S P T : Type}

section Set

variable [DecidableEq C]

theorem set_same {A B : Type} [DecidableEq A] (f : C → A → B) (c : C) (a : A) (b : B) :
    set f c a b c a = b := by
  rw [set, Function.update_self, Function.update_self]

theorem set_of_ne {A B : Type} [DecidableEq A] (f : C → A → B) {c c' : C} {a a' : A} (b : B)
    (h : ¬(c' = c ∧ a' = a)) : set f c a b c' a' = f c' a' := by
  rw [set]
  by_cases hc : c' = c
  · subst hc
    rw [Function.update_self, Function.update_of_ne fun ha => h ⟨rfl, ha⟩]
  · rw [Function.update_of_ne hc]

end Set

variable (layout : Layout C S P)

/-! ## What a step changes in the shards -/

/-- The gate is closed: more tables were opened in the shard than it has room for. -/
def Closed (st : State C S P T) (c : C) (s : S) : Prop := layout.shardCapacity c < st.opens c s

variable {c : C}

theorem open_of_enabled {st : State C S P T} {s : S}
    (h : enabled (layout.shardCapacity c) (st.opens c s) = true) : ¬Closed layout st c s := by
  rw [enabled, Bool.and_eq_true, decide_eq_true_iff, decide_eq_true_iff] at h
  exact Nat.not_lt_of_le h.2

/-- What can happen in a run. An `Evict` returns when it has advanced the generation, or when the gate
is closed. -/
structure Later (st st' : State C S P T) : Prop where
  generation : ∀ c s, st.generation c s ≤ st'.generation c s
  closed : ∀ c s, Closed layout st c s → Closed layout st' c s
  clock : st.clock ≤ st'.clock
  ended : ∀ c s z, st.ended c s = some z → st'.ended c s = some z
  ends : ∀ c s z, st'.ended c s = some z → st.ended c s = some z ∨ st.clock ≤ z
  evictions : ∀ e ∈ st'.evictions, e ∈ st.evictions ∨ st.clock ≤ e.returned ∧
    (Closed layout st' e.identity (layout.shardOf e.fileNumber) ∨
      st.generation e.identity (layout.shardOf e.fileNumber) <
        st'.generation e.identity (layout.shardOf e.fileNumber))

variable {layout} {st st' : State C S P T}

theorem Later.refl (st : State C S P T) : Later layout st st :=
  ⟨fun _ _ => Nat.le_refl _, fun _ _ h => h, Nat.le_refl _, fun _ _ _ h => h, fun _ _ _ h => .inl h,
    fun _ h => .inl h⟩

theorem Later.trans {st'' : State C S P T} (h : Later layout st st') (h' : Later layout st' st'') :
    Later layout st st'' where
  generation c s := (h.generation c s).trans (h'.generation c s)
  closed c s hclosed := h'.closed c s (h.closed c s hclosed)
  clock := h.clock.trans h'.clock
  ended c s z hz := h'.ended c s z (h.ended c s z hz)
  ends := by
    intro c s z hz
    rcases h'.ends c s z hz with hz | hz
    · exact h.ends c s z hz
    · exact .inr (h.clock.trans hz)
  evictions := by
    intro e he
    rcases h'.evictions e he with he | ⟨hclock, hcase⟩
    · rcases h.evictions e he with he | ⟨hclock, hcase⟩
      · exact .inl he
      · exact .inr ⟨hclock, hcase.imp (h'.closed _ _) fun hlt => hlt.trans_le (h'.generation _ _)⟩
    · exact .inr ⟨h.clock.trans hclock, hcase.imp_right (h.generation _ _).trans_lt⟩

variable (layout) in
/-- A step that moves neither a generation nor an eviction. -/
structure Quiet (st st' : State C S P T) : Prop where
  generation : st'.generation = st.generation
  ended : st'.ended = st.ended
  evictions : st'.evictions = st.evictions
  clock : st'.clock = st.clock + 1
  closed : ∀ c s, Closed layout st c s → Closed layout st' c s

theorem Quiet.later (h : Quiet layout st st') : Later layout st st' where
  generation c s := by rw [h.generation]
  closed := h.closed
  clock := by rw [h.clock]; exact Nat.le_succ _
  ended c s z hz := by rw [h.ended]; exact hz
  ends c s z hz := .inl (by rw [h.ended] at hz; exact hz)
  evictions e he := .inl (by rw [h.evictions] at he; exact he)

/-! ## Samples, hints and phases -/

variable (layout)

/-- A sample of a shard: an eviction that came later is known by a larger generation. -/
structure SampleOk (st : State C S P T) (c : C) (s : S) (sample : Sample) : Prop where
  le : sample.generation ≤ st.generation c s
  before : sample.loaded < st.clock
  covered : ∀ e ∈ st.evictions, e.identity = c → layout.shardOf e.fileNumber = s →
    sample.loaded ≤ e.erased → Closed layout st c s ∨ sample.generation < st.generation c s

/-- A hint holds the table of its key, found after the sample. -/
structure HintOk (st : State C S P T) (hint : ReaderHint C) : Prop where
  identity : hint.table.identity = hint.identity
  fileNumber : hint.table.fileNumber = hint.fileNumber
  sample : SampleOk layout st hint.identity (layout.shardOf hint.fileNumber) hint.sample
  loaded_lt : hint.sample.loaded < hint.found
  generation_lt : hint.sample.generation < terminal

/-- The table is the one that the call asks for. -/
def OwnTable (call : GetCall C) (table : TableReader C) : Prop :=
  table.identity = call.identity ∧ table.fileNumber = call.fileNumber

/-- An eviction of the shard that had returned when the call began. -/
def EvictedBefore (st : State C S P T) (call : GetCall C) (e : Eviction C) : Prop :=
  e ∈ st.evictions ∧ e.identity = call.identity ∧
    layout.shardOf e.fileNumber = layout.shardOf call.fileNumber ∧ e.returned < call.started

/-- A hint that has passed the comparison of the generations. -/
structure Matched (st : State C S P T) (call : GetCall C) (hint : ReaderHint C) (sample : Sample) :
    Prop where
  table : OwnTable call hint.table
  before : sample.loaded < st.clock
  found : ∀ e, EvictedBefore layout st call e → e.erased < hint.found
  ended : ∀ z, st.ended call.identity (layout.shardOf call.fileNumber) = some z → sample.loaded < z

/-- The sample was loaded before the table was found. -/
def SampledBefore (st : State C S P T) (call : GetCall C) (sample : Option Sample) (found : Nat) :
    Prop :=
  ∀ x ∈ sample, SampleOk layout st call.identity (layout.shardOf call.fileNumber) x ∧ x.loaded < found

/-- Behind an open gate, a hint of the thread that is older than an eviction has another generation. -/
def Passed (st : State C S P T) (t : T) (call : GetCall C) : Prop :=
  ∀ k hint, st.hints t k = some hint → hint.identity = call.identity →
    layout.shardOf hint.fileNumber = layout.shardOf call.fileNumber →
    ∀ e, EvictedBefore layout st call e → hint.sample.loaded ≤ e.erased →
      hint.sample.generation < st.generation call.identity (layout.shardOf call.fileNumber)

/-- What each phase of `Get` relies on. -/
def GetOk (st : State C S P T) (t : T) (call : GetCall C) : GetPhase C → Prop
  | .gate => True
  | .load => Passed layout st t call
  | .lock hint sample => Matched layout st call hint sample ∧
      SampleOk layout st call.identity (layout.shardOf call.fileNumber) sample
  | .lookup sample =>
      ∀ x ∈ sample, SampleOk layout st call.identity (layout.shardOf call.fileNumber) x
  | .openTable sample found => SampledBefore layout st call sample found
  | .recordLoad sample found table => SampledBefore layout st call sample found ∧ OwnTable call table
  | .recordSwap sample found table _ => SampledBefore layout st call sample found ∧ OwnTable call table
  | .insert sample found table => SampledBefore layout st call sample found ∧ OwnTable call table
  | .recheckGate sample found table =>
      SampledBefore layout st call (some sample) found ∧ OwnTable call table
  | .recheckGeneration sample found table =>
      SampledBefore layout st call (some sample) found ∧ OwnTable call table ∧
        sample.generation < terminal
  | .serve _ none => True
  | .serve table (some (hint, sample)) => hint.table = table ∧ Matched layout st call hint sample

/-- What each phase of `Evict` relies on. -/
def EvictOk (st : State C S P T) (c : C) (s : S) : EvictPhase → Prop
  | .erase => True
  | .load erased => erased < st.clock
  | .close erased _ => erased < st.clock
  | .swap erased observed => erased < st.clock ∧ (observed ≥ terminal - 1 → Closed layout st c s)

/-- The same for a thread, whatever it does. -/
def PhaseOk (st : State C S P T) (t : T) : Phase C → Prop
  | .idle => True
  | .get call phase => call.started < st.clock ∧ GetOk layout st t call phase
  | .evict identity fileNumber phase => EvictOk layout st identity (layout.shardOf fileNumber) phase

variable {layout}

section Later

variable (h : Later layout st st')
include h

theorem SampleOk.later {c : C} {s : S} {sample : Sample} (hs : SampleOk layout st c s sample) :
    SampleOk layout st' c s sample where
  le := hs.le.trans (h.generation c s)
  before := hs.before.trans_le h.clock
  covered := by
    rintro e he rfl rfl hloaded
    rcases h.evictions e he with he | ⟨_, hcase⟩
    · exact (hs.covered e he rfl rfl hloaded).imp (h.closed _ _) fun hlt =>
        hlt.trans_le (h.generation _ _)
    · exact hcase.imp_right hs.le.trans_lt

theorem HintOk.later {hint : ReaderHint C} (hs : HintOk layout st hint) : HintOk layout st' hint :=
  ⟨hs.identity, hs.fileNumber, hs.sample.later h, hs.loaded_lt, hs.generation_lt⟩

variable {call : GetCall C}

theorem EvictedBefore.earlier {e : Eviction C} (hstarted : call.started < st.clock)
    (he : EvictedBefore layout st' call e) : EvictedBefore layout st call e := by
  obtain ⟨hmem, hidentity, hshard, hreturned⟩ := he
  rcases h.evictions e hmem with hmem | ⟨hclock, _⟩
  · exact ⟨hmem, hidentity, hshard, hreturned⟩
  · omega

theorem Matched.later {hint : ReaderHint C} {sample : Sample} (hstarted : call.started < st.clock)
    (hm : Matched layout st call hint sample) :
    Matched layout st' call hint sample where
  table := hm.table
  before := hm.before.trans_le h.clock
  found e he := hm.found e (he.earlier h hstarted)
  ended := by
    intro z hz
    rcases h.ends _ _ z hz with hz | hz
    · exact hm.ended z hz
    · exact hm.before.trans_le hz

theorem SampledBefore.later {sample : Option Sample} {found : Nat}
    (hs : SampledBefore layout st call sample found) : SampledBefore layout st' call sample found :=
  fun x hx => ⟨(hs x hx).1.later h, (hs x hx).2⟩

theorem Passed.later {t : T} (hstarted : call.started < st.clock)
    (hhints : st'.hints t = st.hints t) (hp : Passed layout st t call) :
    Passed layout st' t call := by
  intro k hint hhint hidentity hshard e he hloaded
  rw [hhints] at hhint
  exact (hp k hint hhint hidentity hshard e (he.earlier h hstarted) hloaded).trans_le
    (h.generation _ _)

theorem PhaseOk.later {t : T} {phase : Phase C} (hhints : st'.hints t = st.hints t)
    (hs : PhaseOk layout st t phase) : PhaseOk layout st' t phase := by
  cases phase with
  | idle => trivial
  | get call phase =>
    obtain ⟨hstarted, hs⟩ := hs
    refine ⟨hstarted.trans_le h.clock, ?_⟩
    cases phase with
    | gate => trivial
    | load => exact Passed.later h hstarted hhints hs
    | lock => exact ⟨hs.1.later h hstarted, hs.2.later h⟩
    | lookup => exact fun x hx => (hs x hx).later h
    | openTable => exact SampledBefore.later h hs
    | recordLoad => exact ⟨hs.1.later h, hs.2⟩
    | recordSwap => exact ⟨hs.1.later h, hs.2⟩
    | insert => exact ⟨hs.1.later h, hs.2⟩
    | recheckGate => exact ⟨hs.1.later h, hs.2⟩
    | recheckGeneration => exact ⟨hs.1.later h, hs.2⟩
    | serve table hint =>
      cases hint with
      | none => trivial
      | some hint => exact ⟨hs.1, hs.2.later h hstarted⟩
  | evict identity fileNumber phase =>
    cases phase with
    | erase => trivial
    | load => exact Nat.lt_of_lt_of_le hs h.clock
    | close => exact Nat.lt_of_lt_of_le hs h.clock
    | swap => exact ⟨hs.1.trans_le h.clock, fun hobserved => h.closed _ _ (hs.2 hobserved)⟩

end Later

/-! ## The invariant -/

variable (layout) in
/-- The invariant of the cache and of all threads. -/
structure Inv (st : State C S P T) : Prop where
  tables : ∀ c n table, st.tables c n = some table → table.identity = c ∧ table.fileNumber = n
  bounded : ∀ c s, st.generation c s ≤ terminal
  closes : ∀ c s, st.generation c s = terminal → Closed layout st c s
  ended_iff : ∀ c s, (st.ended c s).isSome = true ↔ st.generation c s = terminal
  ended_lt : ∀ c s z, st.ended c s = some z → z < st.clock
  erased_lt : ∀ e ∈ st.evictions, e.erased < st.clock
  hints : ∀ t k hint, st.hints t k = some hint → HintOk layout st hint
  threads : ∀ t, PhaseOk layout st t (st.threads t)

theorem inv_initial (h : Initial st) : Inv layout st := by
  have hlt := h.generation_lt
  rw [h.fresh]
  exact {
    tables := fun _ _ _ h => nomatch h
    bounded := fun c s => (hlt c s).le
    closes := fun c s heq => absurd heq (hlt c s).ne
    ended_iff := fun c s => ⟨fun h => (nomatch h), fun heq => absurd heq (hlt c s).ne⟩
    ended_lt := fun _ _ _ h => nomatch h
    erased_lt := fun _ h => absurd h List.not_mem_nil
    hints := fun _ _ _ h => nomatch h
    threads := fun _ => trivial }

variable {t : T} {call : GetCall C}

theorem Inv.passed (h : Inv layout st) (henabled : enabled (layout.shardCapacity call.identity)
      (st.shardOpens layout call.identity call.fileNumber) = true) : Passed layout st t call := by
  intro k hint hhint hidentity hshard e he hloaded
  have hcovered := (h.hints t k hint hhint).sample.covered e he.1 (he.2.1.trans hidentity.symm)
    (he.2.2.1.trans hshard.symm) hloaded
  rw [hidentity, hshard] at hcovered
  exact hcovered.resolve_left (open_of_enabled layout henabled)

theorem getOk_afterFind {sample : Option Sample} {found : Nat} {table : TableReader C}
    (hsample : SampledBefore layout st' call sample found) (htable : OwnTable call table) :
    GetOk layout st' t call (afterFind sample found table) := by
  cases sample with
  | none => trivial
  | some sample => exact ⟨hsample, htable⟩

variable (layout) in
/-- A step keeps the invariant, and only what may happen happens. -/
structure Kept (st st' : State C S P T) : Prop where
  later : Later layout st st'
  inv : Inv layout st'

theorem Inv.quiet (h : Inv layout st) (hq : Quiet layout st st')
    (htables : ∀ c n table, st'.tables c n = some table → table.identity = c ∧ table.fileNumber = n)
    (hthreads : ∀ t, st'.threads t = st.threads t ∧ st'.hints t = st.hints t ∨
      PhaseOk layout st' t (st'.threads t) ∧
        ∀ k hint, st'.hints t k = some hint → HintOk layout st' hint) : Inv layout st' where
  tables := htables
  bounded c s := by
    rw [hq.generation]
    exact h.bounded c s
  closes c s heq := by
    rw [hq.generation] at heq
    exact hq.closed c s (h.closes c s heq)
  ended_iff c s := by
    rw [hq.generation, hq.ended]
    exact h.ended_iff c s
  ended_lt c s z hz := by
    rw [hq.ended] at hz
    exact (h.ended_lt c s z hz).trans_le hq.later.clock
  erased_lt e he := by
    rw [hq.evictions] at he
    exact (h.erased_lt e he).trans_le hq.later.clock
  hints := by
    intro t k hint hhint
    rcases hthreads t with ⟨_, heq⟩ | ⟨_, hown⟩
    · rw [heq] at hhint
      exact (h.hints t k hint hhint).later hq.later
    · exact hown k hint hhint
  threads := by
    intro t
    rcases hthreads t with ⟨heq, hhints⟩ | ⟨hphase, _⟩
    · rw [heq]
      exact (h.threads t).later hq.later hhints
    · exact hphase

variable [DecidableEq T]

variable {phase : Phase C}

theorem Inv.moves (h : Inv layout st) (hq : Quiet layout st st')
    (hthreads : st'.threads = Function.update st.threads t phase) (hhints : st'.hints = st.hints)
    (htables : ∀ c n table, st'.tables c n = some table → table.identity = c ∧ table.fileNumber = n)
    (hphase : PhaseOk layout st' t phase) : Kept layout st st' := by
  refine ⟨hq.later, h.quiet hq htables fun t' => ?_⟩
  rw [hthreads, hhints]
  by_cases ht : t' = t
  · subst ht
    rw [Function.update_self]
    exact .inr ⟨hphase, fun k hint hhint => (h.hints t' k hint hhint).later hq.later⟩
  · rw [Function.update_of_ne ht]
    exact .inl ⟨rfl, rfl⟩

theorem quiet_goTo (st : State C S P T) (t : T) (phase : Phase C) :
    Quiet layout st (st.goTo t phase) := ⟨rfl, rfl, rfl, rfl, fun _ _ h => h⟩

theorem later_goTo (st : State C S P T) (t : T) (phase : Phase C) :
    Later layout st (st.goTo t phase) := (quiet_goTo st t phase).later

theorem Inv.goTo (h : Inv layout st) (hphase : PhaseOk layout (st.goTo t phase) t phase) :
    Kept layout st (st.goTo t phase) :=
  h.moves (quiet_goTo st t phase) rfl rfl h.tables hphase

theorem Inv.sampleOk (h : Inv layout st) (c : C) (s : S) (phase : Phase C) :
    SampleOk layout (st.goTo t phase) c s ⟨st.generation c s, st.clock⟩ where
  le := Nat.le_refl _
  before := Nat.lt_succ_self _
  covered := by
    intro e he _ _ hloaded
    have hlt := h.erased_lt e he
    dsimp only at hloaded
    omega

theorem Inv.matched (h : Inv layout st) (hstarted : call.started < st.clock)
    (hpassed : Passed layout st t call) {k : P} {hint : ReaderHint C}
    (hhint : st.hints t k = some hint) (hnumber : hint.fileNumber = call.fileNumber)
    (hidentity : hint.identity = call.identity)
    (hgeneration : hint.sample.generation = st.shardGeneration layout call.identity call.fileNumber)
    (phase : Phase C) : Matched layout (st.goTo t phase) call hint
      ⟨st.shardGeneration layout call.identity call.fileNumber, st.clock⟩ := by
  have hok := h.hints t k hint hhint
  refine ⟨⟨hok.identity.trans hidentity, hok.fileNumber.trans hnumber⟩, Nat.lt_succ_self _,
    fun e he => ?_, fun z hz => ?_⟩
  · -- An older hint of the shard has a smaller generation than the one that was loaded.
    have hlater : ¬hint.sample.loaded ≤ e.erased := by
      intro hle
      have hlt := hpassed k hint hhint hidentity (congrArg layout.shardOf hnumber) e
        (he.earlier (later_goTo st t phase) hstarted) hle
      exact hlt.ne hgeneration
    have hfound := hok.loaded_lt
    omega
  · have hended := (h.ended_iff call.identity (layout.shardOf call.fileNumber)).mp
      (Option.isSome_iff_exists.mpr ⟨z, hz⟩)
    exact absurd (hgeneration.trans hended) hok.generation_lt.ne

variable (layout) in
/-- What a step may make of one shard. -/
structure ShardNext (st : State C S P T) (c : C) (s : S) (generation : Nat) (ended : Option Nat) :
    Prop where
  le : st.generation c s ≤ generation
  ended_of : ∀ z, st.ended c s = some z → ended = some z
  ends : ∀ z, ended = some z → st.ended c s = some z ∨ z = st.clock
  bounded : generation ≤ terminal
  closes : generation = terminal → Closed layout st c s
  ended_iff : ended.isSome = true ↔ generation = terminal

omit [DecidableEq T] in
theorem Inv.shardNext (h : Inv layout st) (c : C) (s : S) :
    ShardNext layout st c s (st.generation c s) (st.ended c s) :=
  ⟨Nat.le_refl _, fun _ h => h, fun _ h => .inl h, h.bounded c s, h.closes c s, h.ended_iff c s⟩

omit [DecidableEq T] in
theorem Inv.shardNext_advance (h : Inv layout st) {s : S} (hne : st.generation c s ≠ terminal)
    (hclosed : st.generation c s ≥ terminal - 1 → Closed layout st c s) :
    ShardNext layout st c s (st.generation c s + 1)
      (if st.generation c s + 1 = terminal then some st.clock else st.ended c s) := by
  have hle := h.bounded c s
  have hnone : st.ended c s = none :=
    Option.not_isSome_iff_eq_none.mp fun hsome => hne ((h.ended_iff c s).mp hsome)
  refine ⟨Nat.le_succ _, fun z hz => ?_, fun z hz => ?_, by omega, fun heq => hclosed (by omega), ?_⟩
  · rw [hnone] at hz
    cases hz
  · split at hz
    · exact .inr (Option.some.inj hz).symm
    · exact .inl hz
  · split
    · next heq => exact ⟨fun _ => heq, fun _ => rfl⟩
    · next hlt =>
      rw [hnone]
      exact ⟨fun h => (nomatch h), fun heq => absurd heq hlt⟩

theorem Inv.evicted {n erased : Nat} (h : Inv layout st) (herased : erased < st.clock)
    {generation : C → S → Nat} {ended : C → S → Option Nat}
    (hnext : ∀ c s, ShardNext layout st c s (generation c s) (ended c s))
    (hcase : Closed layout st c (layout.shardOf n) ∨
      st.generation c (layout.shardOf n) < generation c (layout.shardOf n)) :
    Kept layout st ({ st with generation, ended }.evicted t c n erased) := by
  have hlater : Later layout st
      ({ st with generation, ended }.evicted t c n erased) := by
    refine ⟨fun c s => (hnext c s).le, fun _ _ h => h, Nat.le_succ _, fun c s => (hnext c s).ended_of,
      fun c s z hz => ((hnext c s).ends z hz).imp_right fun heq => heq.ge, fun e he => ?_⟩
    rcases List.mem_cons.mp he with rfl | he
    · exact .inr ⟨Nat.le_refl _, hcase⟩
    · exact .inl he
  refine ⟨hlater, h.tables, fun c s => (hnext c s).bounded, fun c s => (hnext c s).closes,
    fun c s => (hnext c s).ended_iff, fun c s z hz => ?_, fun e he => ?_,
    fun t' k hint hhint => (h.hints t' k hint hhint).later hlater, fun t' => ?_⟩
  · rcases (hnext c s).ends z hz with hz | rfl
    · exact (h.ended_lt c s z hz).trans (Nat.lt_succ_self _)
    · exact Nat.lt_succ_self _
  · rcases List.mem_cons.mp he with rfl | he
    · exact herased.trans (Nat.lt_succ_self _)
    · exact (h.erased_lt e he).trans (Nat.lt_succ_self _)
  · dsimp only [State.evicted, State.goTo]
    by_cases ht : t' = t
    · subst ht
      rw [Function.update_self]
      trivial
    · rw [Function.update_of_ne ht]
      exact (h.threads t').later hlater rfl

section Hints

variable [DecidableEq P]

theorem Inv.publish {t : T} {call : GetCall C} (h : Inv layout st) {sample : Sample} {found : Nat}
    {table : TableReader C} (hsample : SampledBefore layout st call (some sample) found)
    (htable : OwnTable call table) (hgeneration : sample.generation < terminal)
    (hstarted : call.started < st.clock) :
    Kept layout st ({ st with
      hints := Function.update st.hints t (Function.update (st.hints t)
        (layout.slotOf call.identity call.fileNumber)
        (some ⟨call.identity, call.fileNumber, sample, table, found⟩)) }.goTo t
          (.get call (.serve table none))) := by
  have hq : Quiet layout st ({ st with
      hints := Function.update st.hints t (Function.update (st.hints t)
        (layout.slotOf call.identity call.fileNumber)
        (some ⟨call.identity, call.fileNumber, sample, table, found⟩)) }.goTo t
          (.get call (.serve table none))) := ⟨rfl, rfl, rfl, rfl, fun _ _ h => h⟩
  refine ⟨hq.later, h.quiet hq h.tables fun t' => ?_⟩
  dsimp only [State.goTo]
  by_cases ht : t' = t
  · subst ht
    rw [Function.update_self, Function.update_self]
    refine .inr ⟨⟨hstarted.trans_le hq.later.clock, trivial⟩, fun k hint hhint => ?_⟩
    by_cases hk : k = layout.slotOf call.identity call.fileNumber
    · subst hk
      rw [Function.update_self] at hhint
      cases hhint
      obtain ⟨hok, hlt⟩ := hsample sample rfl
      exact ⟨htable.1, htable.2, hok.later hq.later, hlt, hgeneration⟩
    · rw [Function.update_of_ne hk] at hhint
      exact (h.hints t' k hint hhint).later hq.later
  · rw [Function.update_of_ne ht, Function.update_of_ne ht]
    exact .inl ⟨rfl, rfl⟩

end Hints

variable [DecidableEq C]

omit [DecidableEq T] in
theorem Inv.tables_set (h : Inv layout st) {n : Nat} {found : Option (TableReader C)}
    (hfound : ∀ table ∈ found, table.identity = c ∧ table.fileNumber = n) (c' : C) (n' : Nat)
    (table : TableReader C) (htable : set st.tables c n found c' n' = some table) :
    table.identity = c' ∧ table.fileNumber = n' := by
  by_cases heq : c' = c ∧ n' = n
  · obtain ⟨rfl, rfl⟩ := heq
    exact hfound table ((set_same _ _ _ _).symm.trans htable)
  · exact h.tables c' n' table ((set_of_ne _ _ heq).symm.trans htable)

theorem Inv.goTo_tables (h : Inv layout st) {n : Nat} {found : Option (TableReader C)}
    (hfound : ∀ table ∈ found, table.identity = c ∧ table.fileNumber = n)
    (hphase : Later layout st ({ st with tables := set st.tables c n found }.goTo t phase) →
      PhaseOk layout ({ st with tables := set st.tables c n found }.goTo t phase) t phase) :
    Kept layout st ({ st with tables := set st.tables c n found }.goTo t phase) := by
  have hq : Quiet layout st ({ st with tables := set st.tables c n found }.goTo t phase) :=
    ⟨rfl, rfl, rfl, rfl, fun _ _ h => h⟩
  exact h.moves hq rfl rfl (h.tables_set hfound) (hphase hq.later)

variable [DecidableEq S]

theorem Inv.goTo_opens (h : Inv layout st) {s : S} {count : Nat}
    (hcount : Closed layout st c s → layout.shardCapacity c < count)
    (hphase : Later layout st ({ st with opens := set st.opens c s count }.goTo t phase) →
      PhaseOk layout ({ st with opens := set st.opens c s count }.goTo t phase) t phase) :
    Kept layout st ({ st with opens := set st.opens c s count }.goTo t phase) := by
  have hq : Quiet layout st ({ st with opens := set st.opens c s count }.goTo t phase) := by
    refine ⟨rfl, rfl, rfl, rfl, fun c' s' hclosed => ?_⟩
    by_cases heq : c' = c ∧ s' = s
    · obtain ⟨rfl, rfl⟩ := heq
      exact (hcount hclosed).trans_eq (set_same _ _ _ _).symm
    · exact Nat.lt_of_lt_of_eq hclosed (set_of_ne _ _ heq).symm
  exact h.moves hq rfl rfl h.tables (hphase hq.later)

/-! ## Steps of `Get` -/

variable [DecidableEq P]

theorem getStep_kept {phase : GetPhase C} (h : Inv layout st)
    (hphase : PhaseOk layout st t (.get call phase)) (outcome : Bool) :
    Kept layout st (getStep layout st t call outcome phase) := by
  obtain ⟨hstarted, hphase⟩ := hphase
  have hstarted' : call.started < st.clock + 1 := hstarted.trans (Nat.lt_succ_self _)
  cases phase with
  | gate =>
    refine h.goTo ⟨hstarted', ?_⟩
    split
    · next henabled => exact (h.passed henabled).later (later_goTo _ _ _) hstarted rfl
    · exact fun x hx => nomatch hx
  | load =>
    refine h.goTo ⟨hstarted', ?_⟩
    have hsample (phase : Phase C) : GetOk layout (st.goTo t phase) t call
        (.lookup (some ⟨st.shardGeneration layout call.identity call.fileNumber, st.clock⟩)) := by
      intro x hx
      cases hx
      exact h.sampleOk _ _ _
    generalize hnext : Phase.get call (loadGeneration layout st t call) = phase
    rw [loadGeneration]
    split
    · exact hsample phase
    · next hint hhint =>
      split
      · next hmatch =>
        exact ⟨h.matched hstarted hphase hhint hmatch.1 hmatch.2.2 hmatch.2.1 phase,
          h.sampleOk _ _ _⟩
      · exact hsample phase
  | lock hint sample =>
    refine h.goTo ⟨hstarted', ?_⟩
    split
    · exact ⟨rfl, hphase.1.later (later_goTo _ _ _) hstarted⟩
    · intro x hx
      cases hx
      exact hphase.2.later (later_goTo _ _ _)
  | lookup sample =>
    have hsample : SampledBefore layout st call sample st.clock :=
      fun x hx => ⟨hphase x hx, (hphase x hx).before⟩
    rw [getStep]
    split
    · next table htable =>
      exact h.goTo ⟨hstarted', getOk_afterFind (hsample.later (later_goTo _ _ _))
        (h.tables _ _ table htable)⟩
    · exact h.goTo ⟨hstarted', hsample.later (later_goTo _ _ _)⟩
  | openTable sample found =>
    rw [getStep]
    split
    · have hq : Quiet layout st ({ st with nextTable := st.nextTable + 1 }.goTo t
          (.get call (.recordLoad sample found ⟨st.nextTable, call.identity, call.fileNumber⟩))) :=
        ⟨rfl, rfl, rfl, rfl, fun _ _ h => h⟩
      exact h.moves hq rfl rfl h.tables ⟨hstarted', SampledBefore.later hq.later hphase, rfl, rfl⟩
    · exact h.goTo trivial
  | recordLoad sample found table =>
    exact h.goTo ⟨hstarted', hphase.1.later (later_goTo _ _ _), hphase.2⟩
  | recordSwap sample found table count =>
    rw [getStep]
    split
    · split
      · next hswap =>
        refine h.goTo_opens (fun hclosed => ?_) fun hlater =>
          ⟨hstarted', hphase.1.later hlater, hphase.2⟩
        rw [← hswap.2]
        exact Nat.lt_succ_of_lt hclosed
      · exact h.goTo ⟨hstarted', hphase.1.later (later_goTo _ _ _), hphase.2⟩
    · exact h.goTo ⟨hstarted', hphase.1.later (later_goTo _ _ _), hphase.2⟩
  | insert sample found table =>
    rw [getStep]
    split
    · refine h.goTo_tables (fun table' htable' => ?_) fun hlater =>
        ⟨hstarted', getOk_afterFind (hphase.1.later hlater) hphase.2⟩
      cases htable'
      exact hphase.2
    · exact h.goTo trivial
  | recheckGate sample found table =>
    refine h.goTo ⟨hstarted', ?_⟩
    split
    · next henabled =>
      have hlt : sample.generation < terminal := by
        have hle := (hphase.1 sample rfl).1.le
        have hopen := open_of_enabled layout henabled
        refine Nat.lt_of_le_of_lt hle (Nat.lt_of_le_of_ne (h.bounded _ _) fun heq => ?_)
        exact hopen (h.closes _ _ heq)
      exact ⟨hphase.1.later (later_goTo _ _ _), hphase.2, hlt⟩
    · trivial
  | recheckGeneration sample found table =>
    rw [getStep]
    split
    · exact h.publish hphase.1 hphase.2.1 hphase.2.2 hstarted
    · exact h.goTo ⟨hstarted', trivial⟩
  | serve table hint => exact h.goTo trivial

/-! ## Steps of `Evict` -/

omit [DecidableEq P] in
theorem evictStep_kept {n : Nat} {phase : EvictPhase} (h : Inv layout st)
    (hphase : PhaseOk layout st t (.evict c n phase)) (outcome : Bool) :
    Kept layout st (evictStep layout st t c n outcome phase) := by
  cases phase with
  | erase => exact h.goTo_tables (fun _ h => nomatch h) fun _ => Nat.lt_succ_self st.clock
  | load erased =>
    have herased : erased < st.clock + 1 := Nat.lt_succ_of_lt hphase
    refine h.goTo ?_
    split
    · exact herased
    · next hlt => exact ⟨herased, fun hge => absurd hge hlt⟩
  | close erased observed =>
    refine h.goTo_opens (fun _ => Nat.lt_succ_self _) fun _ => ⟨Nat.lt_succ_of_lt hphase, fun _ => ?_⟩
    exact (Nat.lt_succ_self _).trans_eq (set_same _ _ _ _).symm
  | swap erased observed =>
    obtain ⟨herased, hclosed⟩ := hphase
    rw [evictStep]
    split
    · next hterminal =>
      refine h.evicted herased h.shardNext (.inl (hclosed ?_))
      rw [hterminal]
      exact Nat.sub_le _ _
    next hterminal =>
    split
    · next hswap =>
      obtain ⟨_, rfl⟩ := hswap
      refine h.evicted herased (fun c' s' => ?_) (.inr ?_)
      · by_cases heq : c' = c ∧ s' = layout.shardOf n
        · obtain ⟨rfl, rfl⟩ := heq
          have hadvance := h.shardNext_advance hterminal hclosed
          rw [set_same]
          split
          · next heq =>
            rw [State.shardGeneration] at heq
            rw [if_pos heq] at hadvance
            rw [set_same]
            exact hadvance
          · next hlt =>
            rw [State.shardGeneration] at hlt
            rw [if_neg hlt] at hadvance
            exact hadvance
        · rw [set_of_ne _ _ heq, ite_apply, ite_apply, set_of_ne _ _ heq, ite_self]
          exact h.shardNext c' s'
      · rw [set_same]
        exact Nat.lt_succ_self _
    · exact h.goTo (Nat.lt_succ_of_lt herased)

/-! ## Runs -/

theorem step_kept (h : Inv layout st) (hstep : Step layout st st') : Kept layout st st' := by
  obtain ⟨event, hstep⟩ := hstep
  cases event with
  | get t c n =>
    rw [step] at hstep
    split at hstep
    · cases hstep
      exact h.goTo ⟨Nat.lt_succ_self st.clock, trivial⟩
    · cases hstep
  | evict t c n =>
    rw [step] at hstep
    split at hstep
    · cases hstep
      exact h.goTo trivial
    · cases hstep
  | advance t outcome =>
    have hphase := h.threads t
    rw [step] at hstep
    split at hstep
    · cases hstep
    · next hthread =>
      cases hstep
      rw [hthread] at hphase
      exact getStep_kept h hphase outcome
    · next hthread =>
      cases hstep
      rw [hthread] at hphase
      exact evictStep_kept h hphase outcome
  | drop c n =>
    cases hstep
    have hq : Quiet layout st
        { st with tables := set st.tables c n none, clock := st.clock + 1 } :=
      ⟨rfl, rfl, rfl, rfl, fun _ _ h => h⟩
    exact ⟨hq.later, h.quiet hq (h.tables_set fun _ h => nomatch h) fun _ => .inl ⟨rfl, rfl⟩⟩

theorem run_kept (h : Inv layout st) (hrun : Relation.ReflTransGen (Step layout) st st') :
    Kept layout st st' := by
  induction hrun with
  | refl => exact ⟨Later.refl st, h⟩
  | tail _ hstep ih =>
    have hkept := step_kept ih.inv hstep
    exact ⟨ih.later.trans hkept.later, hkept.inv⟩

theorem inv_of_reachable (h : Transition.Reachable Initial (Step layout) st) : Inv layout st :=
  h.invariant (fun _ hinitial => inv_initial hinitial) fun _ _ hinv hstep => (step_kept hinv hstep).inv

theorem reaches_of_run (events : List (Event C T)) : ∀ {st st' : State C S P T},
    run layout events st = some st' → Relation.ReflTransGen (Step layout) st st' := by
  induction events with
  | nil =>
    intro st st' h
    cases h
    exact .refl
  | cons event events ih =>
    intro st st' h
    obtain ⟨next, hstep, hrest⟩ := Option.bind_eq_some_iff.mp h
    exact .head ⟨event, hstep⟩ (ih hrest)

/-- A call that is served through a hint uses a table of its own cache and file, from a `Find` that
started behind the erasure of every `Evict` of the file that had returned before the call. A generation
does not come back; and once it is the largest one, only calls that have loaded it before can still be
served through a hint. -/
theorem evicted_hints_unused (layout : Layout C S P) {st : State C S P T}
    (h : Transition.Reachable Initial (Step layout) st) :
    (∀ t call table hint sample, st.threads t = .get call (.serve table (some (hint, sample))) →
      hint.table = table ∧ table.identity = call.identity ∧ table.fileNumber = call.fileNumber ∧
      ∀ e ∈ st.evictions, e.identity = call.identity → e.fileNumber = call.fileNumber →
        e.returned < call.started → e.erased < hint.found) ∧
    ∀ st', Relation.ReflTransGen (Step layout) st st' → ∀ c s,
      (∀ st'', Relation.ReflTransGen (Step layout) st' st'' →
        st''.generation c s = st.generation c s → st'.generation c s = st.generation c s) ∧
      (st.generation c s = terminal → st'.generation c s = terminal ∧
        ∀ t call table hint sample, st'.threads t = .get call (.serve table (some (hint, sample))) →
          call.identity = c → layout.shardOf call.fileNumber = s → sample.loaded < st.clock) := by
  have hinv := inv_of_reachable h
  refine ⟨fun t call table hint sample hserve => ?_, fun st' hrun c s => ?_⟩
  · have hphase := hinv.threads t
    rw [hserve] at hphase
    obtain ⟨_, rfl, hmatched⟩ := hphase
    refine ⟨rfl, hmatched.table.1, hmatched.table.2, fun e he hidentity hnumber hreturned => ?_⟩
    exact hmatched.found e ⟨he, hidentity, congrArg layout.shardOf hnumber, hreturned⟩
  · have hkept := run_kept hinv hrun
    have hle := hkept.later.generation c s
    refine ⟨fun st'' hrun' heq => ?_, fun hterminal => ⟨?_, ?_⟩⟩
    · have hle' := (run_kept hkept.inv hrun').later.generation c s
      omega
    · have hbounded := hkept.inv.bounded c s
      omega
    · rintro t call table hint sample hserve rfl rfl
      have hphase := hkept.inv.threads t
      rw [hserve] at hphase
      obtain ⟨_, _, hmatched⟩ := hphase
      obtain ⟨z, hz⟩ := Option.isSome_iff_exists.mp ((hinv.ended_iff _ _).mpr hterminal)
      have hlt := hinv.ended_lt _ _ z hz
      exact (hmatched.ended z (hkept.later.ended _ _ z hz)).trans hlt

/-! ## A call that an `Evict` overtakes -/

def Phase.servedByHint : Phase C → Bool
  | .get _ (.serve _ (some _)) => true
  | _ => false

/-- One of these evictions of the file had returned when the call started. -/
def Phase.servedBehind (evictions : List (Eviction C)) : Phase C → Bool
  | .get call (.serve _ (some _)) => evictions.any fun e =>
      e.identity = call.identity ∧ e.fileNumber = call.fileNumber ∧ e.returned < call.started
  | _ => false

def oneShard : Layout Unit Unit Unit := ⟨fun _ => 4, fun _ => (), fun _ _ => ()⟩

def lastStart : State Unit Unit Unit Bool :=
  { opens := fun _ _ => 0, generation := fun _ _ => terminal - 2 }

/-- File 1 is evicted. A call opens its table and leaves a hint, and the next one compares it; then the
other thread evicts file 2. -/
def overtaking : List (Event Unit Bool) :=
  .evict true () 1 :: List.replicate 3 (.advance true true) ++
    .get false () 1 :: List.replicate 10 (.advance false true) ++
      .get false () 1 :: List.replicate 2 (.advance false true) ++
        .evict true () 2 :: List.replicate 4 (.advance true true)

def overtaken : Option (State Unit Unit Unit Bool) := run oneShard overtaking lastStart

def servedLate : Option (State Unit Unit Unit Bool) :=
  overtaken.bind (run oneShard [.advance false true])

theorem initial_lastStart : Initial lastStart := ⟨rfl, fun _ _ => Nat.sub_lt (by decide) (by decide)⟩

theorem overtaken_served : ∃ st st' call table hint sample,
    Transition.Reachable Initial (Step oneShard) st ∧ st.generation () () = terminal ∧
    (∀ t : Bool, (st.threads t).servedByHint = false) ∧
    Relation.ReflTransGen (Step oneShard) st st' ∧
    st'.threads false = .get call (.serve table (some (hint, sample))) ∧
    (st'.tables () 1).isSome = true ∧ ∃ e ∈ st'.evictions, e.identity = call.identity ∧
      e.fileNumber = call.fileNumber ∧ e.returned < call.started := by
  have hsome : overtaken.isSome = true := by decide +kernel
  obtain ⟨st, hst⟩ := Option.isSome_iff_exists.mp hsome
  have hlate : servedLate.isSome = true := by decide +kernel
  obtain ⟨st', hst'⟩ := Option.isSome_iff_exists.mp hlate
  have hgeneration : overtaken.all (fun st => decide (st.generation () () = terminal) &&
      !(st.threads false).servedByHint && !(st.threads true).servedByHint) = true := by decide +kernel
  have hserved : servedLate.all (fun st => (st.threads false).servedBehind st.evictions &&
      (st.tables () 1).isSome) = true := by decide +kernel
  rw [hst] at hgeneration
  rw [hst'] at hserved
  rw [servedLate, hst] at hst'
  simp only [Option.all_some, Bool.and_eq_true, Bool.not_eq_true', decide_eq_true_iff]
    at hgeneration hserved
  obtain ⟨hbehind, htable⟩ := hserved
  unfold Phase.servedBehind at hbehind
  split at hbehind
  · next call table pair hthread =>
    obtain ⟨e, he, hbefore⟩ := List.any_eq_true.mp hbehind
    exact ⟨st, st', call, table, pair.1, pair.2,
      ⟨lastStart, initial_lastStart, reaches_of_run overtaking hst⟩, hgeneration.1.1,
      Bool.forall_bool.mpr ⟨hgeneration.1.2, hgeneration.2⟩, reaches_of_run _ hst', hthread, htable,
      e, he, of_decide_eq_true hbefore⟩
  · cases hbehind

/-- The generation cannot advance any more, no call is being served through a hint, and then one is: its
table is in the cache. -/
theorem hint_used_at_terminal : ∃ st st', Transition.Reachable Initial (Step oneShard) st ∧
    st.generation () () = terminal ∧ (∀ t : Bool, (st.threads t).servedByHint = false) ∧
    Relation.ReflTransGen (Step oneShard) st st' ∧ (st'.threads false).servedByHint = true ∧
    (st'.tables () 1).isSome = true := by
  obtain ⟨st, st', _, _, _, _, hreach, hterminal, hidle, hrun, hthread, htable, _⟩ := overtaken_served
  exact ⟨st, st', hreach, hterminal, hidle, hrun, by rw [hthread]; rfl, htable⟩

/-- That call was overtaken by the last generation, and comes behind an eviction of its file. -/
theorem evicted_hints_unused_overtaken : ∃ st st' : State Unit Unit Unit Bool,
    ∃ call table hint sample, st'.generation () () = terminal ∧
      st'.threads false = .get call (.serve table (some (hint, sample))) ∧ hint.table = table ∧
      sample.loaded < st.clock ∧
      ∃ e ∈ st'.evictions, e.fileNumber = table.fileNumber ∧ e.erased < hint.found := by
  obtain ⟨st, st', call, table, hint, sample, hreach, hterminal, _, hrun, hthread, _, e, he,
    hidentity, hnumber, hreturned⟩ := overtaken_served
  obtain ⟨start, hinitial, hstart⟩ := hreach
  obtain ⟨htable, _, hfile, hfound⟩ := (evicted_hints_unused oneShard
    ⟨start, hinitial, hstart.trans hrun⟩).1 false call table hint sample hthread
  obtain ⟨hgeneration, hloaded⟩ := ((evicted_hints_unused oneShard
    ⟨start, hinitial, hstart⟩).2 st' hrun () ()).2 hterminal
  exact ⟨st, st', call, table, hint, sample, hgeneration, hthread, htable,
    hloaded false call table hint sample hthread rfl rfl, e, he, hnumber.trans hfile.symm,
    hfound e he hidentity hnumber hreturned⟩

end ModernLevelDB.TableCache
