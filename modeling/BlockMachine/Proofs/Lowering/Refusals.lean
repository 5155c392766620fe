import BlockMachine.Proofs.Lowering.Checks
import BlockMachine.Proofs.Lowering.Transcript

/-!
# Which refusal is reported
Lowering fills blocks in the order in which the obligations of a graph list them, so it is refused
by the first obligation that is not met. The list says nothing of blocks out of reach, and leaves
out none that can be reached.
-/

namespace BlockMachine
set_option autoImplicit false

theorem drop_of_extends {α : Type} {xs ys : List α} (h : xs <+: ys) {i : Nat} {x : α}
    (hx : xs[i]? = some x) : ys.drop i = x :: ys.drop (i + 1) := by
  obtain ⟨hLt, rfl⟩ := List.getElem?_eq_some_iff.mp (getElem?_of_extends h hx)
  exact List.drop_eq_getElem_cons hLt

namespace Graph

variable {g : Graph} {known roots : List BlockId}

theorem block?_of_mem_nodes {b : BlockId} {n : Node} (hn : n ∈ g.nodes b) :
    g.block? b = some (g.nodes b) := by
  cases hBlock : g.block? b with
  | none =>
    rw [nodes, hBlock] at hn
    cases hn
  | some nodes => rw [nodes_eq hBlock]

section Discovery

theorem follow_of_some {i : Nat} {b : BlockId} (h : known[i]? = some b) :
    g.follow known i = (Node.targets (g.nodes b)).foldl enlist known := by rw [follow, h]

theorem follow_of_none {i : Nat} (h : known[i]? = none) : g.follow known i = known := by
  rw [follow, h]

theorem follow_extends (known : List BlockId) (i : Nat) : known <+: g.follow known i := by
  rw [follow]
  split
  · exact foldl_enlist_extends known _
  · exact List.prefix_rfl

theorem foldl_follow_extends (known : List BlockId) (places : List Nat) :
    known <+: places.foldl g.follow known := by
  induction places generalizing known with
  | nil => exact List.prefix_rfl
  | cons i places ih => exact (follow_extends known i).trans (ih (g.follow known i))

theorem foldl_follow_of_le {i : Nat} (h : known.length ≤ i) (turns : Nat) :
    (List.range' i turns).foldl g.follow known = known := by
  induction turns generalizing i with
  | zero => rfl
  | succ turns ih =>
    rw [List.range'_succ, List.foldl_cons, follow_of_none (List.getElem?_eq_none h)]
    exact ih (Nat.le_succ_of_le h)

theorem reachable_foldl_follow (hKnown : ∀ b ∈ known, g.Reachable roots b) (places : List Nat) :
    ∀ b ∈ places.foldl g.follow known, g.Reachable roots b := by
  induction places generalizing known with
  | nil => exact hKnown
  | cons i places ih =>
    rw [List.foldl_cons]
    apply ih
    cases hNext : known[i]? with
    | none =>
      rw [follow_of_none hNext]
      exact hKnown
    | some a =>
      rw [follow_of_some hNext]
      intro b hb
      rcases mem_foldl_enlist.mp hb with hb | hb
      · exact hKnown b hb
      · obtain ⟨n, hn, hb⟩ := List.mem_flatMap.mp hb
        exact .step (hKnown a (List.mem_of_getElem? hNext)) (block?_of_mem_nodes hn) hn hb

theorem reachable_discover {root : BlockId} (hKnown : ∀ b ∈ known, g.Reachable roots b)
    (hRoot : root ∈ roots) : ∀ b ∈ g.discover known root, g.Reachable roots b := by
  apply reachable_foldl_follow
  intro b hb
  rcases mem_enlist.mp hb with hb | rfl
  · exact hKnown b hb
  · exact .root hRoot

theorem refusal?_eq_none_of_reachable (h : ∀ b, g.Reachable roots b → ∃ nodes,
    g.block? b = some nodes ∧ ∀ n ∈ nodes, n.action.Lowerable g) {rs : List BlockId}
    (hRoots : ∀ r ∈ rs, r ∈ roots) (hKnown : ∀ b ∈ known, g.Reachable roots b) :
    ∀ ob ∈ g.obligations known rs, ob.refusal? g = none := by
  induction rs generalizing known with
  | nil => exact fun _ hob => (List.not_mem_nil hob).elim
  | cons r rs ih =>
    obtain ⟨hHead, hTail⟩ := List.forall_mem_cons.mp hRoots
    have hFound := reachable_discover hKnown hHead
    have hExists {b : BlockId} (hb : g.Reachable roots b) : (g.block? b).isSome = true := by
      obtain ⟨nodes, hNodes, -⟩ := h b hb
      exact Option.isSome_of_eq_some hNodes
    rw [obligations, List.forall_mem_cons, List.forall_mem_append]
    refine ⟨blockRefusal?_eq_none_iff.mpr (hExists (.root hHead)), ?_, ih hTail hFound⟩
    intro ob hob
    obtain ⟨b, hb, hob⟩ := List.mem_flatMap.mp hob
    obtain ⟨n, hn, hob⟩ := List.mem_flatMap.mp hob
    have hReachable := hFound b (List.mem_of_mem_drop hb)
    obtain ⟨nodes, hNodes, hLowerable⟩ := h b hReachable
    rw [nodes_eq hNodes] at hn
    have hTargets : ∀ t ∈ n.action.targets, (g.block? t).isSome = true := fun t ht =>
      hExists (.step hReachable hNodes hn ht)
    exact Node.forall_duties_iff.mpr ⟨hLowerable n hn, hTargets⟩ ob hob

end Discovery

section Ahead

variable {done turns : Nat}

/-- What is left to look at while the roots are worked off: the duties of the blocks behind the
finished ones, found in so many turns, and what the roots that are left bring in. -/
def ahead (g : Graph) (known : List BlockId) (done turns : Nat) (roots : List BlockId) :
    List Obligation :=
  (((List.range' done turns).foldl g.follow known).drop done).flatMap g.duties ++
    g.obligations ((List.range' done turns).foldl g.follow known) roots

theorem ahead_of_none (h : known[done]? = none) :
    g.ahead known done turns roots = g.obligations known roots := by
  have hLe := List.getElem?_eq_none_iff.mp h
  rw [ahead, foldl_follow_of_le hLe, List.drop_eq_nil_of_le hLe, List.flatMap_nil, List.nil_append]

theorem ahead_of_some {b : BlockId} (h : known[done]? = some b) :
    g.ahead known done (turns + 1) roots =
      g.duties b ++ g.ahead (g.follow known done) (done + 1) turns roots := by
  have hFound : (g.follow known done)[done]? = some b :=
    getElem?_of_extends (follow_extends known done) h
  rw [ahead, List.range'_succ, List.foldl_cons, drop_of_extends (foldl_follow_extends _ _) hFound,
    List.flatMap_cons, List.append_assoc]
  rfl

/-- A root is looked at, and then what it brings in is ahead. -/
theorem obligations_cons (known : List BlockId) (root : BlockId) (roots : List BlockId) :
    g.obligations known (root :: roots) =
      [.root root] ++ g.ahead (enlist known root) known.length g.blocks.length roots := rfl

end Ahead

end Graph

namespace Lowering

open Draft

variable {g : Graph} {roots : List BlockId} {d d' : Draft} {done : List BlockId}
  {spares : List (List (List Slot))}

def refused? : EStateM.Result Refusal Draft Unit → Option Refusal
  | .ok _ _ => none
  | .error r _ => some r

theorem exists_turn (hs : Settled g roots d done spares) {b : BlockId} {turns : Nat}
    (hNext : d.registered[done.length]? = some b)
    (hTurns : g.blocks.length ≤ done.length + turns) : ∃ n, turns = n + 1 := by
  have hLt := (List.getElem?_eq_some_iff.mp hNext).1
  have hLe := hs.length_registered_le
  exact ⟨turns - 1, by omega⟩

theorem lowerBlock_follow {label : Label} {b : BlockId} {u : Unit}
    (hs : Settled g roots d done spares) (hNext : d.registered[done.length]? = some b)
    (h : lowerBlock g label b d = .ok u d') :
    (∀ ob ∈ g.duties b, ob.refusal? g = none) ∧
      d'.registered = g.follow d.registered done.length := by
  have hExists := hs.exist b (List.mem_of_getElem? hNext)
  obtain ⟨hMet, hRegisters⟩ := (lowerBlock_meets label hExists).ok hs.exist h
  refine ⟨hMet, ?_⟩
  rw [hRegisters.registered, Graph.block?_duties, Graph.follow_of_some hNext]

theorem root_meets (root : BlockId) : Meets g id [.root root] (labelFor g root) :=
  labelFor_meets rfl rfl rfl

/-- While the roots are worked off, the first obligation ahead that is not met is what ends it. -/
theorem WorksOff.findSome?_ahead {rs : List BlockId} {result : EStateM.Result Refusal Draft Unit}
    (h : WorksOff g rs d result) (hRoots : ∀ r ∈ rs, r ∈ roots) (hs : Settled g roots d done spares)
    {turns : Nat} (hTurns : g.blocks.length ≤ done.length + turns) :
    (g.ahead d.registered done.length turns rs).findSome? (Obligation.refusal? g) =
      refused? result := by
  induction h generalizing done spares turns with
  | done hNone =>
    rw [Graph.ahead_of_none (hs.length ▸ hNone)]
    rfl
  | @block rs d d' b result hNext hBlock hRest ih =>
    rw [hs.length] at hNext
    obtain ⟨hMet, hFollow⟩ := lowerBlock_follow hs hNext hBlock
    obtain ⟨spare, hs', -⟩ := lowerBlock_ok hs hNext hBlock
    obtain ⟨turns, rfl⟩ := exists_turn hs hNext hTurns
    have hLength : (done ++ [b]).length = done.length + 1 := List.length_append
    have hLeft : g.blocks.length ≤ (done ++ [b]).length + turns := by omega
    have hLater := ih hRoots hs' hLeft
    rw [hLength, hFollow] at hLater
    rw [Graph.ahead_of_some hNext, List.findSome?_append, List.findSome?_eq_none_iff.mpr hMet, hLater]
    rfl
  | @blockRefused rs d d' b r hNext hBlock =>
    rw [hs.length] at hNext
    have hExists := hs.exist b (List.mem_of_getElem? hNext)
    obtain ⟨turns, rfl⟩ := exists_turn hs hNext hTurns
    rw [Graph.ahead_of_some hNext, List.findSome?_append,
      (lowerBlock_meets _ hExists).error hs.exist hBlock]
    rfl
  | @root root rs d d' label result hNone hLabel hRest ih =>
    rw [hs.length] at hNone
    obtain ⟨hHead, hTail⟩ := List.forall_mem_cons.mp hRoots
    obtain ⟨hMet, hRegisters⟩ := (root_meets root).ok hs.exist hLabel
    obtain ⟨-, hAdvance⟩ := labelFor_ok hLabel
    have hLater := ih hTail (settled_of_root hHead hs hAdvance) (Nat.le_add_left _ _)
    have hLength : done.length = d.registered.length :=
      Nat.le_antisymm hs.registered.length_le (List.getElem?_eq_none_iff.mp hNone)
    have hRegistered : d'.registered = enlist d.registered root := hRegisters.registered
    rw [hRegistered, hLength] at hLater
    rw [Graph.ahead_of_none hNone, Graph.obligations_cons, List.findSome?_append,
      List.findSome?_eq_none_iff.mpr hMet, hLater]
    rfl
  | @rootRefused root rs d d' r hNone hLabel =>
    rw [hs.length] at hNone
    rw [Graph.ahead_of_none hNone, Graph.obligations_cons, List.findSome?_append,
      (root_meets root).error hs.exist hLabel]
    rfl

end Lowering

namespace Graph

variable {g : Graph} {roots : List BlockId} {r : Refusal}

theorem exists_program_or_refused (hRoots : roots ≠ []) :
    (∃ p, g.lower roots = .ok p) ∧ (∀ ob ∈ g.obligations [] roots, ob.refusal? g = none) ∨
      ∃ r, g.lower roots = .error r ∧
        (g.obligations [] roots).findSome? (Obligation.refusal? g) = some r := by
  obtain ⟨result, hWorksOff, hLower⟩ := exists_worksOff g roots
  have hFirst := hWorksOff.findSome?_ahead (fun _ hr => hr) (Draft.settled_empty g roots)
    (Nat.le_add_left g.blocks.length _)
  rw [ahead_of_none rfl] at hFirst
  cases result with
  | error r d => exact .inr ⟨r, hLower, hFirst⟩
  | ok u d =>
    rw [Lowering.outcome, if_neg hRoots] at hLower
    exact .inl ⟨⟨_, hLower⟩, List.findSome?_eq_none_iff.mp hFirst⟩

theorem lower_eq_error_iff (hRoots : roots ≠ []) : g.lower roots = .error r ↔
    (g.obligations [] roots).findSome? (Obligation.refusal? g) = some r := by
  rcases exists_program_or_refused (g := g) hRoots with ⟨⟨p, hProgram⟩, hMet⟩ | ⟨r', hRefused, hFirst⟩
  · rw [hProgram, List.findSome?_eq_none_iff.mpr hMet]
    simp
  · rw [hRefused, hFirst]
    simp

theorem lower_eq_noRootBlocks_iff : g.lower roots = .error .noRootBlocks ↔ roots = [] := by
  constructor
  · intro h
    by_contra hRoots
    obtain ⟨ob, -, hRefusal⟩ := List.exists_of_findSome?_eq_some ((lower_eq_error_iff hRoots).mp h)
    exact (Obligation.of_refused hRefusal).1 rfl
  · rintro rfl
    rfl

theorem exists_lower_iff (hRoots : roots ≠ []) : (∃ p, g.lower roots = .ok p) ↔
    ∀ b, g.Reachable roots b → ∃ nodes, g.block? b = some nodes ∧
      ∀ n ∈ nodes, n.action.Lowerable g := by
  constructor
  · rintro ⟨p, hLower⟩ b hb
    obtain ⟨l, hSound, -⟩ := exists_layout_of_lower hLower
    have hCovers := hSound.covers b (hSound.reachable_iff.mpr hb)
    obtain ⟨nodes, hNodes⟩ := Option.isSome_iff_exists.mp hCovers.exist
    exact ⟨nodes, hNodes, nodes_eq hNodes ▸ hCovers.lowerable⟩
  · intro h
    rcases exists_program_or_refused (g := g) hRoots with ⟨hProgram, -⟩ | ⟨r, -, hFirst⟩
    · exact hProgram
    · have hMet := refusal?_eq_none_of_reachable h (fun _ hr => hr)
        fun _ hb => (List.not_mem_nil hb).elim
      rw [List.findSome?_eq_none_iff.mpr hMet] at hFirst
      cases hFirst

/-- Lowering is refused for want of roots, or by the first obligation that is not met, whose line
the refusal carries if it is of a kind that has one. If all that can be reached lowers, there is a
program. -/
theorem lower_refused_first (g : Graph) (roots : List BlockId) :
    (g.lower roots = .error .noRootBlocks ↔ roots = []) ∧
    (roots ≠ [] →
      ((∃ p, g.lower roots = .ok p) ↔ ∀ b, g.Reachable roots b → ∃ nodes, g.block? b = some nodes ∧
        ∀ n ∈ nodes, n.action.Lowerable g) ∧
      ∀ r, g.lower roots = .error r ↔ ∃ before ob after,
        g.obligations [] roots = before ++ ob :: after ∧ (∀ o ∈ before, o.refusal? g = none) ∧
        ob.refusal? g = some r ∧ r.line? = if r.hasLine then ob.line else none) := by
  refine ⟨lower_eq_noRootBlocks_iff, fun hRoots => ⟨exists_lower_iff hRoots, fun r => ?_⟩⟩
  rw [lower_eq_error_iff hRoots, List.findSome?_eq_some_iff]
  constructor
  · rintro ⟨before, ob, after, hSplit, hRefusal, hMet⟩
    exact ⟨before, ob, after, hSplit, hMet, hRefusal, (Obligation.of_refused hRefusal).2⟩
  · rintro ⟨before, ob, after, hSplit, hMet, hRefusal, -⟩
    exact ⟨before, ob, after, hSplit, hRefusal, hMet⟩

/-- Much is wrong: a block that is referred to second has a variable, the one that is referred to
first a literal that has no value and an operand that is not there, and the second root is
missing. -/
def knot : Graph where
  operands := [.temporary none, .variable "x", .literal .null]
  blocks := [
    [⟨.branch ⟨0⟩ ⟨2⟩ ⟨1⟩, some 1⟩, ⟨.jump ⟨0⟩, none⟩],
    [⟨.echo ⟨1⟩, some 8⟩],
    [⟨.binary .plus ⟨2⟩ ⟨9⟩ ⟨0⟩, some 5⟩]]

theorem lower_refused_first_knot : ([⟨0⟩, ⟨7⟩] : List BlockId) ≠ [] ∧
    knot.lower [⟨0⟩, ⟨7⟩] = .error (.unsupportedLiteral "null" (some 5)) := by
  have hRoots : ([⟨0⟩, ⟨7⟩] : List BlockId) ≠ [] := by decide
  refine ⟨hRoots, (((lower_refused_first knot [⟨0⟩, ⟨7⟩]).2 hRoots).2 _).mpr ?_⟩
  let obs := knot.obligations [] [⟨0⟩, ⟨7⟩]
  refine ⟨obs.take 9, .node ⟨.binary .plus ⟨2⟩ ⟨9⟩ ⟨0⟩, some 5⟩ (.operand ⟨2⟩), obs.drop 10, ?_, ?_,
    rfl, rfl⟩
  · decide +kernel
  · decide +kernel

end Graph

end BlockMachine
