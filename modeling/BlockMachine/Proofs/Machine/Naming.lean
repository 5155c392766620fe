import BlockMachine.Machine.Naming
import BlockMachine.Proofs.Machine.Session
import BlockMachine.Proofs.Machine.Trace

/-!
# Constants are settled once
A name that stands for something goes on standing for it. The table grows by commands that define
a constant, and only where nothing has the name yet; so built-in names keep their meaning, and any
other name keeps what it was first given. A fetch looks up the names that its slots spell.
-/

namespace BlockMachine
set_option autoImplicit false

namespace Constants

section Words

variable {name word : String} {v : Value}

theorem toNat_toLower (c : Char) :
    c.toLower.toNat = if 65 ≤ c.toNat ∧ c.toNat ≤ 90 then c.toNat + 32 else c.toNat := by
  by_cases h : c.val ≥ 'A'.val ∧ c.val ≤ 'Z'.val
  · have hVal : c.toLower.val = c.val + 32 := congrArg Char.val (dif_pos h : c.toLower = _)
    have hUpper : 65 ≤ c.toNat ∧ c.toNat ≤ 90 := h
    rw [if_pos hUpper, Char.toNat, hVal, UInt32.toNat_add]
    exact Nat.mod_eq_of_lt (show c.toNat + 32 < _ by omega)
  · rw [if_neg (show ¬ (65 ≤ c.toNat ∧ c.toNat ≤ 90) from h)]
    exact congrArg Char.toNat (dif_neg h : c.toLower = c)

theorem toNat_of_isLower {c : Char} (h : c.isLower = true) :
    97 ≤ c.toNat ∧ c.toNat ≤ 122 ∧ c.toUpper.toNat + 32 = c.toNat := by
  have hDecided : (decide (97 ≤ c.toNat) && decide (c.toNat ≤ 122)) = true := h
  rw [Bool.and_eq_true, decide_eq_true_iff, decide_eq_true_iff] at hDecided
  obtain ⟨hFrom, hTo⟩ := hDecided
  have hLower : 'a'.val ≤ c.val ∧ c.val ≤ 'z'.val := ⟨hFrom, hTo⟩
  have hVal : c.toUpper.val = c.val + ('A'.val - 'a'.val) := by
    change Char.val (dite ('a'.val ≤ c.val ∧ c.val ≤ 'z'.val) _ _) = _
    rw [dif_pos hLower]
  have hShift : ('A'.val - 'a'.val).toNat = 4294967264 := rfl
  refine ⟨hFrom, hTo, ?_⟩
  have hNat : c.toUpper.toNat = (c.toNat + 4294967264) % 4294967296 := by
    rw [Char.toNat, hVal, UInt32.toNat_add, hShift]
    rfl
  omega

theorem toLower_eq_iff {letter c : Char} (h : letter.isLower = true) :
    c.toLower = letter ↔ c = letter ∨ c = letter.toUpper := by
  obtain ⟨hFrom, hTo, hUpper⟩ := toNat_of_isLower h
  rw [← Char.toNat_inj, ← Char.toNat_inj, ← Char.toNat_inj, toNat_toLower]
  split_ifs <;> omega

theorem isWord_iff (h : word.toList.all Char.isLower = true) :
    isWord name word = true ↔ InAnyCase word name := by
  rw [List.all_eq_true] at h
  rw [isWord, beq_iff_eq, InAnyCase]
  generalize word.toList = letters at h
  generalize name.toList = cs
  induction letters generalizing cs with
  | nil => simp
  | cons letter letters ih =>
    obtain ⟨hHead, hTail⟩ := List.forall_mem_cons.mp h
    cases cs with
    | nil => simp
    | cons c cs => simp [ih hTail, toLower_eq_iff hHead]

theorem eq_of_isWord {other : String} (h : isWord name word = true) (h' : isWord name other = true) :
    word = other := by
  simp only [isWord, beq_iff_eq] at h h'
  exact String.toList_inj.mp (h.symm.trans h')

theorem builtin?_of_isWord (h : isWord name word = true) (hWord : '_' ∉ word.toList) :
    builtin? name = if isWord name "true" then some (.boolean true)
      else if isWord name "false" then some (.boolean false)
      else if isWord name "null" then some .unknown else none := by
  have hNe (other : String) (hOther : '_' ∈ other.toList) : name ≠ other := by
    rintro rfl
    simp only [isWord, beq_iff_eq] at h
    exact hWord (h ▸ List.mem_map_of_mem hOther)
  rw [builtin?, if_neg (hNe _ (by decide)), if_neg (hNe _ (by decide)), if_neg (hNe _ (by decide)),
    if_neg (hNe _ (by decide))]

theorem builtin?_eq_some_iff : builtin? name = some v ↔ BuiltIn name v := by
  have hTrue : isWord name "true" = true ↔ InAnyCase "true" name := isWord_iff (by decide)
  have hFalse : isWord name "false" = true ↔ InAnyCase "false" name := isWord_iff (by decide)
  have hNull : isWord name "null" = true ↔ InAnyCase "null" name := isWord_iff (by decide)
  constructor
  · intro h
    rw [builtin?] at h
    split_ifs at h with hMax hMin hSize hEnd hYes hNo hUnknown <;> cases h
    · exact hMax ▸ .intMax
    · exact hMin ▸ .intMin
    · exact hSize ▸ .intSize
    · exact hEnd ▸ .endOfLine
    · exact .yes (hTrue.mp hYes)
    · exact .no (hFalse.mp hNo)
    · exact .null (hNull.mp hUnknown)
  · intro h
    cases h with
    | intMax | intMin | intSize | endOfLine => rfl
    | yes h =>
      have h := hTrue.mpr h
      rw [builtin?_of_isWord h (by decide), if_pos h]
    | no h =>
      have h := hFalse.mpr h
      have hYes : isWord name "true" ≠ true := fun hYes => absurd (eq_of_isWord hYes h) (by decide)
      rw [builtin?_of_isWord h (by decide), if_neg hYes, if_pos h]
    | null h =>
      have h := hNull.mpr h
      have hYes : isWord name "true" ≠ true := fun hYes => absurd (eq_of_isWord hYes h) (by decide)
      have hNo : isWord name "false" ≠ true := fun hNo => absurd (eq_of_isWord hNo h) (by decide)
      rw [builtin?_of_isWord h (by decide), if_neg hYes, if_neg hNo, if_pos h]

end Words

section Table

variable {c c' : Constants} {name : String} {v : Value}

theorem lookup_eq (c : Constants) (name : String) :
    c.lookup name = (c.defined.lookup name).or (builtin? name) := by
  rw [lookup]
  cases c.defined.lookup name <;> rfl

theorem define_eq_ok_iff : c.define name v = .ok c' ↔
    c.lookup name = none ∧ c' = ⟨c.defined ++ [(name, v)]⟩ := by
  rw [define, lookup_eq]
  cases builtin? name <;> cases c.defined.lookup name <;> simp [eq_comm]

theorem define_eq_error_iff {e : AlreadyDefined} : c.define name v = .error e ↔
    c.lookup name ≠ none ∧ e = ⟨name⟩ := by
  rw [define, lookup_eq]
  cases builtin? name <;> cases c.defined.lookup name <;> simp [eq_comm]

theorem lookup_define (h : c.define name v = .ok c') (other : String) :
    c'.lookup other = if other = name then some v else c.lookup other := by
  obtain ⟨hNone, rfl⟩ := define_eq_ok_iff.mp h
  rw [lookup_eq, Option.or_eq_none_iff] at hNone
  obtain ⟨hDefined, hBuiltin⟩ := hNone
  rw [lookup_eq, lookup_eq, List.lookup_append, List.lookup_cons, List.lookup_nil]
  split_ifs with hName
  · subst hName
    simp [hDefined]
  · simp [beq_false_of_ne hName]

end Table

end Constants

section Fetching

variable {c : Constants} {scope : Scope} {name slot : Slot} {qualified : Option Slot}
  {text other : String} {ws : List String}

theorem Scope.Spells.unique (h : scope.Spells slot text) (h' : scope.Spells slot other) :
    text = other := by
  obtain ⟨v, hv, rfl⟩ := h
  obtain ⟨w, hw, rfl⟩ := h'
  cases hv.symm.trans hw
  rfl

theorem Constants.Yields.unique {x y : Except (Fault Slot) Value}
    (h : c.Yields scope name qualified x) (h' : c.Yields scope name qualified y) : x = y := by
  cases h <;> cases h' <;> grind [Scope.Spells.unique]

theorem Scope.exists_spells (h : slot < scope.size) : ∃ text, scope.Spells slot text :=
  ⟨_, scope[slot], Array.getElem?_eq_getElem h, rfl⟩

theorem Eval.name_of_spells (h : scope.Spells slot text) :
    Eval.name (Scope.read scope) slot = pure text := by
  obtain ⟨v, hv, rfl⟩ := h
  rw [Eval.name, Scope.read_of_some hv]
  rfl

theorem fetchConstant_plain (hName : scope.Spells name text) :
    fetchConstant c.lookup (Scope.read scope) name none ws =
      match c.lookup text with
      | some v => .ok v ws
      | none => .error (.undefinedConstant text none) ws := by
  rw [fetchConstant, Eval.name_of_spells hName]
  cases hText : c.lookup text <;> simp [hText] <;> rfl

theorem fetchConstant_qualified (hName : scope.Spells name text) (hOther : scope.Spells slot other) :
    fetchConstant c.lookup (Scope.read scope) name (some slot) ws =
      match c.lookup other, c.lookup text with
      | some v, _ => .ok v ws
      | none, some v => .ok v ws
      | none, none => .error (.undefinedConstant text (some other)) ws := by
  rw [fetchConstant, Eval.name_of_spells hName]
  simp only [pure_bind, Option.mapM_some, Eval.name_of_spells hOther, map_pure, Option.bind_some]
  cases hFirst : c.lookup other <;> cases hText : c.lookup text <;> simp <;> rfl

theorem Constants.exists_yields (c : Constants) (hName : name < scope.size)
    (hQualified : ∀ q ∈ qualified, q < scope.size) :
    ∃ outcome, c.Yields scope name qualified outcome ∧
      fetchConstant c.lookup (Scope.read scope) name qualified ws = match outcome with
        | .ok v => .ok v ws
        | .error fault => .error fault ws := by
  obtain ⟨text, hText⟩ := Scope.exists_spells hName
  cases qualified with
  | none =>
    rw [fetchConstant_plain hText]
    cases hFound : c.lookup text with
    | some v => exact ⟨.ok v, .plain hText hFound, rfl⟩
    | none => exact ⟨.error _, .undefined hText hFound, rfl⟩
  | some slot =>
    obtain ⟨other, hOther⟩ := Scope.exists_spells (hQualified slot rfl)
    rw [fetchConstant_qualified hText hOther]
    cases hFirst : c.lookup other with
    | some v => exact ⟨.ok v, .qualified hOther hFirst, rfl⟩
    | none =>
      cases hFound : c.lookup text with
      | some v => exact ⟨.ok v, .unqualified hOther hFirst hText hFound, rfl⟩
      | none => exact ⟨.error _, .neither hOther hFirst hText hFound, rfl⟩

end Fetching

namespace Machine

variable {p : Program} {limits : Limits} {fuel : Nat} {s : State} {a : Activation} {b : CodeBlock}
  {result name : Slot} {qualified : Option Slot}

theorem run_constants {h : Host} {r : Report} (hRun : run fuel p limits h = some r) :
    r.host.constants = h.constants := by
  obtain ⟨text, hRefused⟩ | ⟨entry, hEntry⟩ := refused_or_run p
  · rw [hRefused] at hRun
    cases hRun
    rfl
  · rw [hEntry, runFrom] at hRun
    split at hRun
    · cases hRun
      rfl
    · obtain ⟨⟨last, failure⟩, hIterate, rfl⟩ := Option.map_eq_some_iff.mp hRun
      obtain ⟨n, s, hPasses, hStep⟩ := Halts.of_iterate hIterate
      have hConstants := step_constants p limits s
      rw [hStep] at hConstants
      rw [conclude_constants]
      exact hConstants.trans (hPasses.reaches (.refl _)).constants_eq

/-- A fetch that is let pass, and finds its slots, stores what the constants yield for its names. -/
theorem step_fetch (hAt : s.At p a b (some (.constFetch result name qualified)))
    (hLimit : overLimit limits (s.steps + 1) = none)
    (hSlots : ∀ slot ∈ (Instr.constFetch result name qualified).slots, slot < a.scope.size) :
    ∃ outcome, s.host.constants.Yields a.scope name qualified outcome ∧
      Delivers p limits s a result outcome := by
  have hResult : result < a.scope.size := hSlots result (by simp [Instr.slots])
  have hName : name < a.scope.size := hSlots name (by simp [Instr.slots])
  have hQualified : ∀ q ∈ qualified, q < a.scope.size := by
    intro q hq
    exact hSlots q (by simp [Instr.slots, Option.mem_def.mp hq])
  obtain ⟨outcome, hYields, hFetch⟩ := s.host.constants.exists_yields hName hQualified
  refine ⟨outcome, hYields, ?_⟩
  cases outcome with
  | ok v =>
    have hEffect : (Instr.constFetch result name qualified).effect s.host.constants a.scope [] =
        .ok (.store [(result, v)]) [] := Outcome.bind_of_ok hFetch
    have hWrite : a.scope.writeAll [(result, v)] = .ok (a.scope.setIfInBounds result v) :=
      Scope.writeAll_cons_of_lt hResult v []
    have hStep : step p limits s =
        .next { (s.count a (.constFetch result name qualified)).warn [] with
          running := some { a with scope := a.scope.setIfInBounds result v, pc := a.pc + 1 } } := by
      rw [step_at hAt, execute_of_ok hLimit hEffect, perform, hWrite]
    exact .stored hStep hResult rfl
  | error fault =>
    have hEffect : (Instr.constFetch result name qualified).effect s.host.constants a.scope [] =
        .error fault [] := Outcome.bind_of_error hFetch
    have hStep := (step_at hAt).trans (execute_of_error hLimit hEffect)
    exact .failed hStep

theorem firstDefined_iff {commands : List Command} {name : String} {v : Value} :
    FirstDefined commands name v ↔ commands.findSome? (·.defines? name) = some v := by
  have hDefines (c : Command) (w : Value) : c.defines? name = some w ↔ c = .define name w := by
    cases c <;> simp [Command.defines?, eq_comm]
  rw [List.findSome?_eq_some_iff]
  constructor
  · rintro ⟨before, after, rfl, hBefore⟩
    refine ⟨before, .define name v, after, rfl, by simp [Command.defines?], ?_⟩
    intro c hc
    rw [Option.eq_none_iff_forall_ne_some]
    intro w hw
    exact hBefore w ((hDefines c w).mp hw ▸ hc)
  · rintro ⟨before, c, after, rfl, hc, hBefore⟩
    refine ⟨before, after, by rw [(hDefines c v).mp hc], ?_⟩
    intro w hw
    simpa [Command.defines?] using hBefore _ hw

theorem Command.lookup_constants (c : Command) (before : Constants) (name : String) :
    (c.constants before).lookup name = (before.lookup name).or (c.defines? name) := by
  cases c with
  | run p => simp [Command.constants, Command.defines?]
  | define other v =>
    rw [Command.constants, Command.defines?]
    cases hDefine : before.define other v with
    | ok after =>
      obtain ⟨hNone, -⟩ := Constants.define_eq_ok_iff.mp hDefine
      rw [Constants.lookup_define hDefine]
      by_cases hName : name = other
      · subst hName
        simp [hNone]
      · simp [hName, Ne.symm hName]
    | error e =>
      obtain ⟨hSome, -⟩ := Constants.define_eq_error_iff.mp hDefine
      obtain ⟨w, hw⟩ := Option.ne_none_iff_exists'.mp hSome
      by_cases hName : other = name
      · subst hName
        simp [hw]
      · simp [hName]

namespace Session

variable {s t : Session} {c : Command} {commands : List Command} {reply : Reply}

theorem constants_of_perform (h : s.perform fuel c = some (reply, t)) :
    t.host.constants = c.constants s.host.constants := by
  cases c with
  | define name v =>
    rw [perform, Host.define] at h
    rw [Command.constants]
    cases hDefine : s.host.constants.define name v with
    | ok after | error e =>
      rw [hDefine] at h
      cases h
      rfl
  | run p =>
    rw [perform_run] at h
    obtain ⟨r, hRun, hReply⟩ := Option.map_eq_some_iff.mp h
    cases hReply
    exact run_constants hRun

theorem perform_define (fuel : Nat) (s : Session) (name : String) (v : Value) :
    ∃ result t, s.perform fuel (.define name v) = some (.defined result, t) ∧
      (result = .ok () ↔ s.host.constants.lookup name = none) ∧
      ∀ e, result = .error e → e = ⟨name⟩ ∧ t = s := by
  rw [perform, Host.define]
  cases hDefine : s.host.constants.define name v with
  | ok after =>
    obtain ⟨hNone, -⟩ := Constants.define_eq_ok_iff.mp hDefine
    refine ⟨.ok (), _, rfl, by simp [hNone], ?_⟩
    rintro e ⟨⟩
  | error e =>
    obtain ⟨hSome, rfl⟩ := Constants.define_eq_error_iff.mp hDefine
    refine ⟨.error ⟨name⟩, s, rfl, by simp [hSome], ?_⟩
    rintro e ⟨⟩
    exact ⟨rfl, rfl⟩

theorem Told.lookup_eq (h : s.Told commands) (name : String) :
    s.host.constants.lookup name =
      (Constants.builtin? name).or (commands.findSome? (·.defines? name)) := by
  induction h with
  | fresh hNone => simp [hNone, Constants.lookup_eq]
  | performed _ hPerform ih =>
    rw [constants_of_perform hPerform, Command.lookup_constants, ih, List.findSome?_append,
      Option.or_assoc]
    simp
  | readied _ hSame ih => rw [hSame, ih]

theorem Told.of_play {before : List Command} {replies : List Reply} (h : s.Told before)
    (hPlay : s.play fuel commands = some (replies, t)) : t.Told (before ++ commands) := by
  induction commands generalizing s before replies with
  | nil =>
    cases hPlay
    simpa using h
  | cons c cs ih =>
    obtain ⟨reply, next, rest, hFirst, hRest, -⟩ := play_eq_some.mp hPlay
    simpa using ih (h.performed hFirst) hRest

/-- Whatever a host is told, a name that is built in keeps its meaning, and any other has the one it
was first given, if any. So a constant is defined exactly if its name stood for nothing, and else
nothing changes. No run comes to other constants, and a fetch that a program makes stores the one
that its names come to, or fails for want of it. -/
theorem constants_settled (h : s.Told commands) :
    (∀ name v, s.host.constants.lookup name = some v ↔ Constants.BuiltIn name v ∨
      (∀ w, ¬ Constants.BuiltIn name w) ∧ FirstDefined commands name v) ∧
    (∀ fuel name v, ∃ result t, s.perform fuel (.define name v) = some (.defined result, t) ∧
      (result = .ok () ↔ s.host.constants.lookup name = none) ∧
      ∀ e, result = .error e → e = ⟨name⟩ ∧ t = s) ∧
    ∀ p m, Visits p s.limits s.host m → m.host.constants = s.host.constants ∧
      ((∀ f ∈ s.host.pending, f.Belongs p) → ∀ a b result name qualified,
        m.At p a b (some (.constFetch result name qualified)) →
        overLimit s.limits (m.steps + 1) = none →
        ∃ outcome, s.host.constants.Yields a.scope name qualified outcome ∧
          Delivers p s.limits m a result outcome) := by
  refine ⟨?_, fun fuel name v => perform_define fuel s name v, ?_⟩
  · intro name v
    rw [h.lookup_eq, Option.or_eq_some_iff, firstDefined_iff, Constants.builtin?_eq_some_iff,
      Option.eq_none_iff_forall_ne_some]
    simp only [ne_eq, Constants.builtin?_eq_some_iff]
  · intro p m hVisits
    have hConstants : m.host.constants = s.host.constants := by
      obtain ⟨-, -, entry, -, hReaches⟩ := hVisits
      exact hReaches.constants_eq
    refine ⟨hConstants, ?_⟩
    intro hPending a b result name qualified hAt hLimit
    have ha := (hVisits.belongs hPending).running a hAt.running
    obtain ⟨hSlots, -⟩ := resolves_of_belongs hVisits.wellFormed ha hAt.block hAt.instr
    rw [← hConstants]
    exact step_fetch hAt hLimit hSlots

/-- Asks for a greeting, and for the one of the house first. -/
def inquiry : Program where
  blocks := [{
    label := ⟨0⟩, origin := ⟨0⟩, instrs := [.constFetch 2 0 (some 1)], lines := [none]
    constants := [⟨⟨0⟩, 0, .ofString "greeting"⟩, ⟨⟨1⟩, 1, .ofString "house/greeting"⟩]
    scopeSize := 3 }]
  entry := ⟨0⟩
  slotCount := 3

/-- A constant that is defined after a program has asked for it, and again later, and one that is
built in. -/
def heard : List Command :=
  [.run inquiry, .define "greeting" (.ofString "hi"), .run inquiry, .define "True" (.integer 0),
    .define "greeting" (.integer 4)]

def hearer : Session where
  limits := {}
  steps := 1
  host := { constants := ⟨[("greeting", .ofString "hi")]⟩ }

theorem told_hearer : hearer.Told heard := by
  have hPlay : ∃ replies, (fresh {} {}).play 9 heard = some (replies, hearer) := ⟨_, rfl⟩
  obtain ⟨replies, hPlay⟩ := hPlay
  exact Told.of_play (.fresh rfl) hPlay

def inquirer : Activation where
  code := ⟨0⟩
  scope := #[.ofString "greeting", .ofString "house/greeting", .unknown]

def inquiring : State where
  running := some inquirer
  host := hearer.host
  trail := [.started ⟨0⟩ 1 3]

theorem constants_settled_hearer :
    hearer.Told heard ∧
    hearer.host.constants.lookup "greeting" = some (.ofString "hi") ∧
    hearer.host.constants.lookup "tRUE" = some (.boolean true) ∧
    (∃ t, hearer.perform 9 (.define "tRUE" .unknown) = some (.defined (.error ⟨"tRUE"⟩), t)) ∧
    Visits inquiry {} hearer.host inquiring ∧
    Delivers inquiry {} inquiring inquirer 2 (.ok (.ofString "hi")) := by
  have hTold := told_hearer
  obtain ⟨hLookup, hDefine, hFetch⟩ := constants_settled hTold
  have hOpen : ∀ w, ¬ Constants.BuiltIn "greeting" w := by
    intro w hw
    cases Constants.builtin?_eq_some_iff.mpr hw
  have hFirst : FirstDefined heard "greeting" (.ofString "hi") := by
    refine ⟨[.run inquiry], _, rfl, ?_⟩
    intro w hw
    cases List.mem_singleton.mp hw
  have hGreeting := (hLookup _ _).mpr (.inr ⟨hOpen, hFirst⟩)
  have hYes := (hLookup "tRUE" _).mpr (.inl (.yes (by decide)))
  have hVisits : Visits inquiry {} hearer.host inquiring :=
    ⟨rfl, by decide, _, rfl, .step (.refl _) rfl⟩
  refine ⟨hTold, hGreeting, hYes, ?_, hVisits, ?_⟩
  · obtain ⟨result, t, hPerform, hOk, hError⟩ := hDefine 9 "tRUE" .unknown
    cases result with
    | ok u => cases (hOk.mp rfl).symm.trans hYes
    | error e =>
      obtain ⟨rfl, -⟩ := hError e rfl
      exact ⟨t, hPerform⟩
  · obtain ⟨-, hFetch⟩ := hFetch inquiry inquiring hVisits
    obtain ⟨outcome, hYields, hDelivers⟩ :=
      hFetch (by simp [hearer]) inquirer _ 2 0 (some 1) ⟨rfl, rfl, rfl⟩ rfl
    have hText : inquirer.scope.Spells 0 "greeting" := ⟨.ofString "greeting", rfl, by decide⟩
    have hOther : inquirer.scope.Spells 1 "house/greeting" :=
      ⟨.ofString "house/greeting", rfl, by decide⟩
    exact hYields.unique (.unqualified hOther (by decide) hText hGreeting) ▸ hDelivers

end Session

end Machine

end BlockMachine
