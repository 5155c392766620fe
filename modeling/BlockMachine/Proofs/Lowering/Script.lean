import BlockMachine.Proofs.Lowering.Refusals
import BlockMachine.Proofs.Lowering.Stopping

/-!
# What lowering reports
The events of a lowering that comes to a program are those of its blocks, one block after another.
A lowering that is refused has reported what its script says up to the first check that is not met.
The invariant is that what is ahead of the work list is the rest of the script.
-/

namespace BlockMachine
set_option autoImplicit false

variable {g : Graph} {s : Supply} {k : Nat} {r : Refusal} {known roots : List BlockId}

namespace Graph

theorem obligations_blockScript {b : BlockId} :
    (g.blockScript s k b).filterMap Deed.obligation? = g.duties b := by
  rw [blockScript, List.filterMap_append, Node.obligations_script]
  exact List.append_nil _

theorem events_blockScript {b : BlockId} {spare : List (List Slot)} (scopeSize : Nat)
    (hLengths : spare.map List.length = (g.nodes b).map (·.action.joints))
    (hSpares : s.Spares k spare.flatten) :
    (g.blockScript s k b).filterMap Deed.event? =
      (g.render s.toPlacement scopeSize b spare).reports := by
  have hEvents : (Node.script s (s.label b) k (g.nodes b)).filterMap Deed.event? = _ :=
    Node.events_script hLengths hSpares
  rw [blockScript, List.filterMap_append, hEvents, List.length_map]
  rfl

theorem blockScripts_append (bs cs : List BlockId) : g.blockScripts s k (bs ++ cs) =
    g.blockScripts s k bs ++ g.blockScripts s (k + (bs.map g.joints).sum) cs := by
  induction bs generalizing k with
  | nil => rfl
  | cons b bs ih =>
    rw [List.cons_append, blockScripts, blockScripts, ih, List.append_assoc, List.map_cons,
      List.sum_cons, Nat.add_assoc]

theorem length_flatten_spares {bs : List BlockId} {spares : List (List (List Slot))}
    (h : spares.map (·.map List.length) = bs.map fun b => (g.nodes b).map (·.action.joints)) :
    spares.flatten.flatten.length = (bs.map g.joints).sum := by
  have hSums := congrArg (fun counts => (counts.map List.sum).sum) h
  simp only [List.map_map] at hSums
  rw [List.length_flatten, List.map_flatten, List.sum_flatten, List.map_map]
  exact hSums

theorem events_blockScripts {bs : List BlockId} {spares : List (List (List Slot))} (scopeSize : Nat)
    (hJoints : spares.map (·.map List.length) = bs.map fun b => (g.nodes b).map (·.action.joints))
    (hSpares : s.Spares k spares.flatten.flatten) :
    (g.blockScripts s k bs).filterMap Deed.event? =
      (bs.zipWith (g.render s.toPlacement scopeSize) spares).flatMap CodeBlock.reports := by
  induction bs generalizing k spares with
  | nil => rfl
  | cons b bs ih =>
    cases spares with
    | nil => cases hJoints
    | cons spare spares =>
      obtain ⟨hFirst, hJoints⟩ := List.cons.inj hJoints
      rw [List.flatten_cons, List.flatten_append, Supply.spares_append] at hSpares
      obtain ⟨hSpare, hSpares⟩ := hSpares
      have hLength : spare.flatten.length = g.joints b := by
        rw [List.length_flatten]
        exact congrArg List.sum hFirst
      rw [blockScripts, List.filterMap_append, events_blockScript scopeSize hFirst hSpare,
        ih hJoints (hLength ▸ hSpares), List.zipWith_cons_cons, List.flatMap_cons]

section Ahead

variable {done turns : Nat}

def scriptAhead (g : Graph) (s : Supply) (k : Nat) (known : List BlockId) (done turns : Nat)
    (roots : List BlockId) : List Deed :=
  g.blockScripts s k (((List.range' done turns).foldl g.follow known).drop done) ++
    g.script s ((List.range' done turns).foldl g.follow known) roots

theorem scriptAhead_of_none (h : known[done]? = none) :
    g.scriptAhead s k known done turns roots = g.script s known roots := by
  have hLe := List.getElem?_eq_none_iff.mp h
  rw [scriptAhead, foldl_follow_of_le hLe, List.drop_eq_nil_of_le hLe, blockScripts, List.nil_append]

theorem scriptAhead_of_some {b : BlockId} (h : known[done]? = some b) :
    g.scriptAhead s k known done (turns + 1) roots = g.blockScript s k b ++
      g.scriptAhead s (k + g.joints b) (g.follow known done) (done + 1) turns roots := by
  have hFound : (g.follow known done)[done]? = some b :=
    getElem?_of_extends (follow_extends known done) h
  rw [scriptAhead, List.range'_succ, List.foldl_cons,
    drop_of_extends (foldl_follow_extends _ _) hFound, blockScripts, List.append_assoc]
  rfl

theorem script_cons (known : List BlockId) (root : BlockId) (roots : List BlockId) :
    g.script s known (root :: roots) = .check (.root root) ::
      g.scriptAhead s (known.map g.joints).sum (enlist known root) known.length g.blocks.length
        roots := rfl

theorem discover_extends (known : List BlockId) (root : BlockId) : known <+: g.discover known root :=
  (enlist_extends known root).trans (foldl_follow_extends _ _)

theorem foldl_discover_extends (known roots : List BlockId) : known <+: roots.foldl g.discover known := by
  induction roots generalizing known with
  | nil => exact List.prefix_rfl
  | cons root roots ih => exact (discover_extends known root).trans (ih (g.discover known root))

end Ahead

end Graph

namespace Lowering

open Draft

variable {d d' : Draft} {done : List BlockId} {spares : List (List (List Slot))}

/-- What has been reported between two blocks is what the script says of the finished ones. -/
theorem events_of_settled (hs : Settled g roots d done spares) (hAgrees : d.Agrees s.toPlacement)
    (hSpares : s.Spares 0 spares.flatten.flatten) :
    d.events = (g.blockScripts s 0 done).filterMap Deed.event? := by
  rw [hs.events, hs.blocks _ hAgrees, Graph.events_blockScripts 0 hs.joints hSpares]

/-- The draft that a lowering was refused with, when the graph blocks were done and the script lay
ahead. Its slots have been given out once each, and its blocks are among those to be found. -/
structure Refused (g : Graph) (done found : List BlockId) (ahead : Supply → List Deed) (d : Draft)
    (r : Refusal) (spare : List Slot) : Prop where
  allotted : d.Allotted spare
  keys : (d.slotOf.map Prod.fst).Nodup
  registered : d.registered <+: found
  stops : ∀ s : Supply, d.Agrees s.toPlacement → s.Spares 0 spare → ∃ new,
    d.events = (g.blockScripts s 0 done).filterMap Deed.event? ++ new ∧ g.StopsAt r (ahead s) new

theorem refused_of_stops {targets found : List BlockId} {ahead : Supply → List Deed}
    (hs : Settled g roots d done spares)
    (hStops : Stops g d d' r targets (done.map g.joints).sum ahead)
    (hFound : targets.foldl enlist d.registered <+: found) :
    ∃ spare, Refused g done found ahead d' r spare := by
  obtain ⟨uses, refs, spare, new, hAllots, hRegisters, hRefs, hEvents, hStop⟩ := hStops
  have hKeys : (d.slotOf.map Prod.fst).Nodup := hs.keys ▸ nodup_foldl_enlist List.nodup_nil _
  refine ⟨spares.flatten.flatten ++ spare, hAllots.allotted _ hs.allotted, ?_, ?_, ?_⟩
  · rw [hAllots.keys]
    exact nodup_foldl_enlist hKeys uses
  · obtain ⟨later, rfl⟩ := hRefs
    rw [List.foldl_append] at hFound
    rw [hRegisters.registered]
    exact (foldl_enlist_extends _ later).trans hFound
  · intro s hAgrees hSpares
    obtain ⟨hBefore, hSpare⟩ := Supply.spares_append.mp hSpares
    rw [Nat.zero_add, Graph.length_flatten_spares hs.joints] at hSpare
    have hBetween := events_of_settled hs (hAgrees.mono hAllots.slotOf hRegisters.labels) hBefore
    exact ⟨new, by rw [hEvents, hBetween], hStop s hAgrees hSpare⟩

theorem WorksOff.refused {rs : List BlockId} {result : EStateM.Result Refusal Draft Unit}
    (h : WorksOff g rs d result) (hRoots : ∀ root ∈ rs, root ∈ roots)
    (hs : Settled g roots d done spares) {turns : Nat}
    (hTurns : g.blocks.length ≤ done.length + turns) (hResult : result = .error r d') :
    ∃ spare, Refused g done
      (rs.foldl g.discover ((List.range' done.length turns).foldl g.follow d.registered))
      (fun s => g.scriptAhead s (done.map g.joints).sum d.registered done.length turns rs)
      d' r spare := by
  induction h generalizing done spares turns with
  | done => cases hResult
  | @block rs d d₁ b result hNext hBlock _ ih =>
    rw [hs.length] at hNext
    obtain ⟨hMet, hFollow⟩ := lowerBlock_follow hs hNext hBlock
    obtain ⟨spare, hs', -⟩ := lowerBlock_ok hs hNext hBlock
    obtain ⟨turns, rfl⟩ := exists_turn hs hNext hTurns
    have hLength : (done ++ [b]).length = done.length + 1 := List.length_append
    have hSum : ((done ++ [b]).map g.joints).sum = (done.map g.joints).sum + g.joints b := by
      rw [List.map_append, List.sum_append, List.map_singleton, List.sum_singleton]
    have hLeft : g.blocks.length ≤ (done ++ [b]).length + turns := by omega
    obtain ⟨spare, hAllotted, hKeys, hRegistered, hStops⟩ := ih hRoots hs' hLeft hResult
    rw [hLength, hFollow] at hRegistered
    refine ⟨spare, hAllotted, hKeys, hRegistered, fun s hAgrees hSpares => ?_⟩
    obtain ⟨new, hEvents, hStop⟩ := hStops s hAgrees hSpares
    rw [hLength, hSum, hFollow] at hStop
    rw [Graph.blockScripts_append, Nat.zero_add, List.filterMap_append, List.append_assoc] at hEvents
    refine ⟨_, hEvents, ?_⟩
    rw [Graph.scriptAhead_of_some hNext, Graph.blockScripts, Graph.blockScripts, List.append_nil]
    refine hStop.behind fun ob hOb => ?_
    rw [← Deed.mem_obligations, Graph.obligations_blockScript] at hOb
    exact hMet ob hOb
  | @blockRefused rs d d' b r hNext hBlock =>
    cases hResult
    rw [hs.length] at hNext
    obtain ⟨turns, rfl⟩ := exists_turn hs hNext hTurns
    have hExists := hs.exist b (List.mem_of_getElem? hNext)
    have hStops := (lowerBlock_stops (done.map g.joints).sum hs.exist hExists hBlock).append []
      fun s => .finish (s.label b) b
          ((Node.script s (s.label b) (done.map g.joints).sum (g.nodes b)).filterMap
            Deed.event?).length ::
        g.scriptAhead s ((done.map g.joints).sum + g.joints b) (g.follow d.registered done.length)
          (done.length + 1) turns rs
    refine refused_of_stops hs (hStops.congr fun s hAgrees => ?_) ?_
    · have hLabel : s.label b = ⟨d.finished.length⟩ := by
        rw [hs.length]
        exact hAgrees.label _ b hNext
      rw [Graph.scriptAhead_of_some hNext, Graph.blockScript, hLabel, List.append_assoc]
      rfl
    · rw [List.append_nil, ← Graph.follow_of_some hNext, List.range'_succ, List.foldl_cons]
      exact (Graph.foldl_follow_extends _ _).trans (Graph.foldl_discover_extends _ _)
  | @root root rs d d₁ label result hNone hLabel _ ih =>
    rw [hs.length] at hNone
    obtain ⟨hHead, hTail⟩ := List.forall_mem_cons.mp hRoots
    obtain ⟨hMet, hRegisters⟩ := (root_meets root).ok hs.exist hLabel
    obtain ⟨-, hAdvance⟩ := labelFor_ok hLabel
    have hDone : done = d.registered := hs.registered.eq_of_length_le
      (List.getElem?_eq_none_iff.mp hNone)
    have hRegistered : d₁.registered = enlist d.registered root := hRegisters.registered
    have hLater := ih hTail (settled_of_root hHead hs hAdvance) (Nat.le_add_left _ _) hResult
    rw [hRegistered, hDone] at hLater
    obtain ⟨spare, hAllotted, hKeys, hFound, hStops⟩ := hLater
    have hKnown : (List.range' done.length turns).foldl g.follow d.registered = d.registered :=
      Graph.foldl_follow_of_le (Nat.le_of_eq (congrArg List.length hDone.symm)) turns
    rw [hKnown]
    refine ⟨spare, hAllotted, hKeys, hFound, fun s hAgrees hSpares => ?_⟩
    obtain ⟨new, hEvents, hStop⟩ := hStops s hAgrees hSpares
    rw [Graph.scriptAhead_of_none hNone, Graph.script_cons, hDone]
    refine ⟨new, hEvents, ?_⟩
    have hRoot : ∀ ob, .check ob ∈ [Deed.check (.root root)] → ob.refusal? g = none := by
      intro ob hOb
      cases List.mem_singleton.mp hOb
      exact hMet _ List.mem_cons_self
    exact hStop.behind hRoot
  | @rootRefused root rs d d' r hNone hLabel =>
    cases hResult
    rw [hs.length] at hNone
    have hRefusal := (root_meets root).error hs.exist hLabel
    rw [List.findSome?_singleton] at hRefusal
    cases labelFor_error hLabel
    refine refused_of_stops hs (.here hRefusal [] fun s => ?_) ?_
    · exact ⟨_, Graph.scriptAhead_of_none hNone⟩
    · exact (Graph.foldl_follow_extends _ _).trans (Graph.foldl_discover_extends _ _)

end Lowering

theorem lookup_of_mem {α β : Type} [DecidableEq α] {entries : List (α × β)} {a : α} {b : β}
    (hKeys : (entries.map Prod.fst).Nodup) (h : (a, b) ∈ entries) : entries.lookup a = some b := by
  obtain ⟨front, back, rfl⟩ := List.append_of_mem h
  rw [List.map_append, List.map_cons, List.nodup_append] at hKeys
  refine List.lookup_eq_some_iff.mpr ⟨front, back, rfl, fun e he => ?_⟩
  have hNe := hKeys.2.2 e.1 (List.mem_map_of_mem he) a List.mem_cons_self
  exact bne_iff_ne.mpr hNe.symm

theorem mem_of_lookup {α β : Type} [DecidableEq α] {entries : List (α × β)} {a : α} {b : β}
    (h : entries.lookup a = some b) : (a, b) ∈ entries := by
  obtain ⟨front, back, rfl, -⟩ := List.lookup_eq_some_iff.mp h
  exact List.mem_append_right front List.mem_cons_self

theorem Supply.spares_of_getElem? {slots : List Slot}
    (h : ∀ i slot, slots[i]? = some slot → s.spare (k + i) = slot) : s.Spares k slots := by
  induction slots generalizing k with
  | nil => exact trivial
  | cons slot slots ih =>
    refine ⟨h 0 slot rfl, ih fun i later hLater => ?_⟩
    rw [Nat.add_right_comm, Nat.add_assoc]
    exact h (i + 1) later hLater

namespace Draft

variable {d : Draft} {spare : List Slot} {found : List BlockId}

def given (d : Draft) (spare : List Slot) : OperandId ⊕ Nat → Option Slot
  | .inl o => d.slotOf.lookup o
  | .inr k => spare[k]?

def beyond : OperandId ⊕ Nat → Nat
  | .inl o => 2 * o.val
  | .inr k => 2 * k + 1

/-- What was given a slot has it, and everything else has one beyond those of the draft. -/
def place (d : Draft) (spare : List Slot) (x : OperandId ⊕ Nat) : Slot :=
  (d.given spare x).getD (d.nextSlot + beyond x)

def supply (d : Draft) (spare : List Slot) (found : List BlockId) : Supply where
  slot o := d.place spare (.inl o)
  label b := ⟨found.idxOf b⟩
  spare k := d.place spare (.inr k)

theorem beyond_injective : Function.Injective beyond := by
  rintro (o | k) (o' | k') hEq
  · have hVal : 2 * o.val = 2 * o'.val := hEq
    exact congrArg (Sum.inl ∘ OperandId.mk) (Nat.eq_of_mul_eq_mul_left Nat.two_pos hVal)
  · have hVal : 2 * o.val = 2 * k' + 1 := hEq
    omega
  · have hVal : 2 * k + 1 = 2 * o'.val := hEq
    omega
  · have hVal : 2 * k + 1 = 2 * k' + 1 := hEq
    exact congrArg Sum.inr (by omega)

theorem given_lt (h : d.Allotted spare) {x : OperandId ⊕ Nat} {slot : Slot}
    (hx : d.given spare x = some slot) : slot < d.nextSlot := by
  refine List.mem_range.mp (h.subset (List.mem_append.mpr ?_))
  cases x with
  | inl o => exact .inl (List.mem_map_of_mem (mem_of_lookup hx))
  | inr k => exact .inr (List.mem_of_getElem? hx)

theorem given_inj (h : d.Allotted spare) {x y : OperandId ⊕ Nat} {slot : Slot}
    (hx : d.given spare x = some slot) (hy : d.given spare y = some slot) : x = y := by
  obtain ⟨hSlots, hSpares, hApart⟩ := List.nodup_append.mp (h.nodup_iff.mpr List.nodup_range)
  have hMem {o : OperandId} (ho : d.given spare (.inl o) = some slot) : (o, slot) ∈ d.slotOf :=
    mem_of_lookup ho
  have hNe {o : OperandId} {k : Nat} (ho : d.given spare (.inl o) = some slot)
      (hk : d.given spare (.inr k) = some slot) : False :=
    hApart slot (List.mem_map_of_mem (hMem ho)) slot (List.mem_of_getElem? hk) rfl
  cases x with
  | inl o =>
    cases y with
    | inl o' =>
      exact congrArg (Sum.inl ∘ Prod.fst)
        (List.inj_on_of_nodup_map hSlots (hMem hx) (hMem hy) rfl)
    | inr k => exact (hNe hx hy).elim
  | inr k =>
    cases y with
    | inl o => exact (hNe hy hx).elim
    | inr k' =>
      have hLt := (List.getElem?_eq_some_iff.mp hx).1
      exact congrArg Sum.inr ((List.getElem?_inj hLt hSpares).mp (hx.trans hy.symm))

theorem place_injective (h : d.Allotted spare) : Function.Injective (d.place spare) := by
  intro x y hEq
  rw [place, place] at hEq
  cases hx : d.given spare x with
  | some slot =>
    cases hy : d.given spare y with
    | some slot' =>
      rw [hx, hy, Option.getD_some, Option.getD_some] at hEq
      exact given_inj h hx (hEq ▸ hy)
    | none =>
      rw [hx, hy, Option.getD_some, Option.getD_none] at hEq
      exact absurd hEq (Nat.ne_of_lt (Nat.lt_add_right _ (given_lt h hx)))
  | none =>
    cases hy : d.given spare y with
    | some slot =>
      rw [hx, hy, Option.getD_some, Option.getD_none] at hEq
      exact absurd hEq.symm (Nat.ne_of_lt (Nat.lt_add_right _ (given_lt h hy)))
    | none =>
      rw [hx, hy, Option.getD_none, Option.getD_none] at hEq
      exact beyond_injective (Nat.add_left_cancel hEq)

theorem supply_sound (h : d.Allotted spare) : (d.supply spare found).Sound where
  slots _ _ hEq := Sum.inl.inj (place_injective h hEq)
  spares _ _ hEq := Sum.inr.inj (place_injective h hEq)
  apart _ _ hEq := nomatch place_injective h hEq

theorem supply_spares (d : Draft) (spare : List Slot) (found : List BlockId) :
    (d.supply spare found).Spares 0 spare := by
  refine Supply.spares_of_getElem? fun i slot hSlot => ?_
  have hGiven : d.given spare (.inr i) = some slot := hSlot
  change d.place spare (.inr (0 + i)) = slot
  rw [Nat.zero_add, place, hGiven, Option.getD_some]

theorem supply_label (hFound : found.Nodup) {i : Nat} {b : BlockId} (hb : found[i]? = some b) :
    (d.supply spare found).label b = ⟨i⟩ := by
  obtain ⟨hLt, rfl⟩ := List.getElem?_eq_some_iff.mp hb
  exact congrArg Label.mk (hFound.idxOf_getElem i hLt)

theorem agrees_supply (hKeys : (d.slotOf.map Prod.fst).Nodup) (hFound : found.Nodup)
    (hRegistered : d.registered <+: found) : d.Agrees (d.supply spare found).toPlacement where
  slot e he := by
    have hGiven : d.given spare (.inl e.1) = some e.2 := lookup_of_mem hKeys he
    change d.place spare (.inl e.1) = e.2
    rw [place, hGiven, Option.getD_some]
  label i b hb := supply_label hFound (getElem?_of_extends hRegistered hb)

end Draft

namespace Graph

theorem nodup_foldl_follow (hKnown : known.Nodup) (places : List Nat) :
    (places.foldl g.follow known).Nodup := by
  induction places generalizing known with
  | nil => exact hKnown
  | cons i places ih =>
    refine ih ?_
    rw [follow]
    split
    · exact nodup_foldl_enlist hKnown _
    · exact hKnown

theorem nodup_foldl_discover (hKnown : known.Nodup) (roots : List BlockId) :
    (roots.foldl g.discover known).Nodup := by
  induction roots generalizing known with
  | nil => exact hKnown
  | cons root roots ih => exact ih (nodup_foldl_follow (nodup_enlist hKnown root) _)

theorem StopsAt.programDone_not_mem {deeds : List Deed} {events : List Lowering.Event}
    (h : g.StopsAt r deeds events) (n m : Nat) (l : Label) : .programDone n m l ∉ events := by
  obtain ⟨before, ob, after, -, -, -, rfl⟩ := h
  rw [List.mem_filterMap]
  rintro ⟨deed, -, hEvent⟩
  cases deed <;> cases hEvent

/-- A lowering that is refused was refused for want of roots, or its roots were being worked off. -/
theorem worksOff_of_refused {events : List Lowering.Event}
    (h : g.lowering roots = (.error r, events)) :
    roots = [] ∧ r = .noRootBlocks ∧ events = [] ∨
      ∃ d, Lowering.WorksOff g roots {} (.error r d) ∧ d.events = events := by
  rw [lowering, Lowering.lowerRoots] at h
  cases hRoots : roots.mapM (Lowering.lowerRoot g) {} with
  | error r' d =>
    rw [Outcome.bind_of_error hRoots] at h
    cases h
    exact .inr ⟨d, Lowering.worksOff_of_roots_error (fun _ hr => hr) (Draft.settled_empty g roots)
      hRoots, rfl⟩
  | ok labels d =>
    rw [Outcome.bind_of_ok hRoots] at h
    cases roots with
    | nil =>
      rw [List.mapM_nil] at hRoots
      cases hRoots
      cases h
      exact .inl ⟨rfl, rfl, rfl⟩
    | cons root roots =>
      rw [List.mapM_cons] at hRoots
      obtain ⟨l, d₁, -, hRoots⟩ := Outcome.bind_eq_ok_iff.mp hRoots
      obtain ⟨ls, d₂, -, hReturn⟩ := Outcome.bind_eq_ok_iff.mp hRoots
      cases hReturn
      cases h

/-- What a lowering reports says what it has made. If it comes to a program, that is every
instruction of every block in its place, each block behind its instructions, and the program at the
end. If it is refused, it is what the script of the graph says up to the check that is not met: the
instructions of the finished blocks, those of the nodes before the refused one, and if that joins a
list those of the parts before the refused one. -/
theorem lowering_replays (g : Graph) (roots : List BlockId) :
    (∃ p, g.lowering roots = (.ok p, p.blocks.flatMap CodeBlock.reports ++
        [.programDone p.blocks.length p.slotCount p.entry]) ∧
      ∀ (i : Nat) (b : CodeBlock), p.blocks[i]? = some b → b.label = ⟨i⟩) ∨
    ∃ r events, g.lowering roots = (.error r, events) ∧
      (∀ n m l, .programDone n m l ∉ events) ∧
      (roots = [] ∧ r = .noRootBlocks ∧ events = [] ∨
        ∃ s : Supply, s.Sound ∧
          (∀ (i : Nat) (b : BlockId), (roots.foldl g.discover [])[i]? = some b → s.label b = ⟨i⟩) ∧
          g.StopsAt r (g.script s [] roots) events) := by
  cases hLowering : g.lowering roots with
  | mk result events =>
    cases result with
    | ok p =>
      left
      obtain ⟨l, hSound, rfl, rfl⟩ := exists_layout hLowering
      refine ⟨_, rfl, fun i b hb => ?_⟩
      obtain ⟨origin, spares, hOrigin, -, -, rfl⟩ := hSound.block_eq hb
      exact hSound.label_eq i origin hOrigin
    | error r =>
      right
      refine ⟨r, events, rfl, ?_⟩
      rcases worksOff_of_refused hLowering with ⟨rfl, rfl, rfl⟩ | ⟨d, hWorksOff, rfl⟩
      · exact ⟨fun _ _ _ => List.not_mem_nil, .inl ⟨rfl, rfl, rfl⟩⟩
      · obtain ⟨spare, hAllotted, hKeys, hRegistered, hStops⟩ := hWorksOff.refused
          (fun _ hr => hr) (Draft.settled_empty g roots) (Nat.le_add_left g.blocks.length _) rfl
        rw [foldl_follow_of_le (Nat.le_refl _)] at hRegistered
        have hFound : (roots.foldl g.discover []).Nodup := nodup_foldl_discover List.nodup_nil roots
        obtain ⟨new, hEvents, hStop⟩ := hStops _ (Draft.agrees_supply hKeys hFound hRegistered)
          (d.supply_spares spare _)
        rw [scriptAhead_of_none rfl] at hStop
        have hNew : d.events = new := hEvents
        rw [hNew]
        exact ⟨hStop.programDone_not_mem, .inr ⟨_, Draft.supply_sound hAllotted,
          fun i b hb => Draft.supply_label hFound hb, hStop⟩⟩

/-- A block with a list whose third part is a variable, and a block behind it. -/
def snag : Graph where
  operands := [.temporary none, .variable "x"]
  blocks := [
    [⟨.jump ⟨1⟩, some 1⟩],
    [⟨.echo ⟨0⟩, some 2⟩, ⟨.concatList [⟨0⟩, ⟨0⟩, ⟨1⟩, ⟨0⟩] ⟨0⟩, some 3⟩]]

example : snag.lowering [⟨0⟩] = (.error (.unknownOperand "variable" ⟨1⟩ (some 3)),
    [.emitted ⟨0⟩ (.jump ⟨1⟩), .blockDone ⟨0⟩ ⟨0⟩ 1, .emitted ⟨1⟩ (.echo 0),
      .emitted ⟨1⟩ (.binary .concat 1 0 0)]) := by decide +kernel

end Graph

end BlockMachine
