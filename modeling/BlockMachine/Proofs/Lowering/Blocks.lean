import BlockMachine.Proofs.Lowering.Nodes
import Mathlib.Data.List.Perm.Subperm

/-!
# Lowering blocks
The invariant of the work list: the finished blocks are renderings of the first registered graph
blocks. Lowering that succeeds works off the whole list, so what it makes is the program of a sound
layout.
-/

namespace BlockMachine
set_option autoImplicit false

def CodeBlock.reports (b : CodeBlock) : List Lowering.Event :=
  b.instrs.map (.emitted b.label) ++ [.blockDone b.label b.origin b.instrs.length]

theorem Graph.nodes_eq {g : Graph} {b : BlockId} {nodes : List Node}
    (h : g.block? b = some nodes) : g.nodes b = nodes := by rw [Graph.nodes, h, Option.getD_some]

theorem Graph.Covers.mono {g : Graph} {origins origins' : List BlockId} {b : BlockId}
    (h : g.Covers origins b) (hMore : origins <+: origins') : g.Covers origins' b :=
  ⟨h.exist, h.lowerable, fun t ht => hMore.subset (h.targets t ht)⟩

namespace Draft

/-- The state between two blocks: the given graph blocks are done, with the given spare slots. -/
structure Settled (g : Graph) (roots : List BlockId) (d : Draft) (done : List BlockId)
    (spares : List (List (List Slot))) : Prop where
  nodup : d.registered.Nodup
  exist : ∀ b ∈ d.registered, (g.block? b).isSome = true
  reachable : ∀ b ∈ d.registered, g.Reachable roots b
  registered : done <+: d.registered
  length : d.finished.length = done.length
  keys : d.slotOf.map Prod.fst = g.operandsOf done
  allotted : d.Allotted spares.flatten.flatten
  covers : ∀ b ∈ done, g.Covers d.registered b
  joints : spares.map (·.map List.length) = done.map fun b => (g.nodes b).map (·.action.joints)
  blocks : ∀ pl, d.Agrees pl → d.finished = done.zipWith (g.render pl 0) spares
  events : d.events = d.finished.flatMap CodeBlock.reports

theorem settled_empty (g : Graph) (roots : List BlockId) : Settled g roots {} [] [] where
  nodup := List.nodup_nil
  exist _ hb := nomatch hb
  reachable _ hb := nomatch hb
  registered := List.prefix_rfl
  length := rfl
  keys := rfl
  allotted := List.Perm.nil
  covers _ hb := nomatch hb
  joints := rfl
  blocks _ _ := rfl
  events := rfl

variable {g : Graph} {roots : List BlockId} {d : Draft} {done : List BlockId}
  {spares : List (List (List Slot))}

theorem Settled.length_registered_le (h : Settled g roots d done spares) :
    d.registered.length ≤ g.blocks.length := by
  have hNodup : (d.registered.map BlockId.val).Nodup :=
    List.Pairwise.map BlockId.val (fun _ _ hNe hVal => hNe (congrArg BlockId.mk hVal)) h.nodup
  have hSubset : d.registered.map BlockId.val ⊆ List.range g.blocks.length := by
    intro i hi
    obtain ⟨b, hb, rfl⟩ := List.mem_map.mp hi
    obtain ⟨nodes, hNodes⟩ := Option.isSome_iff_exists.mp (h.exist b hb)
    exact List.mem_range.mpr (List.getElem?_eq_some_iff.mp hNodes).1
  simpa using (hNodup.subperm hSubset).length_le

theorem Settled.prefix_of_next (h : Settled g roots d done spares) {b : BlockId}
    (hNext : d.registered[done.length]? = some b) : done ++ [b] <+: d.registered := by
  obtain ⟨rest, hRest⟩ := h.registered
  rw [← hRest, List.getElem?_append_right (Nat.le_refl _), Nat.sub_self] at hNext
  cases rest with
  | nil => cases hNext
  | cons c rest =>
    cases hNext
    rw [← hRest]
    exact ⟨rest, by simp⟩

end Draft

namespace Lowering

open Draft

variable {g : Graph} {roots : List BlockId} {d d' : Draft} {done : List BlockId}
  {spares : List (List (List Slot))}

theorem current_eq_render {nodes : List Node} {refs : List BlockId} {spare : List Slot}
    {is : List Instr} {spares : List (List Slot)} {label : Label} {origin : BlockId}
    {pl : Placement} (hCurrent : d.current = { label, origin }) (hLabel : pl.label origin = label)
    (hNodes : g.nodes origin = nodes) (hAgrees : d'.Agrees pl)
    (h : Advance g d d' (Node.uses nodes) refs spare is (Node.lines nodes))
    (hCodes : is = Node.codes pl nodes spares) : d'.current = g.render pl 0 origin spares := by
  have hConstants := h.constants pl [] hAgrees (by rw [hCurrent]; rfl)
  have hSlots := h.slots pl [] hAgrees (by rw [hCurrent]; rfl)
  have hInstrs := h.instrs
  have hLines := h.lines
  have hBlock := h.label
  have hOrigin := h.origin
  have hScope := h.scopeSize
  rw [hCurrent] at hInstrs hLines hBlock hOrigin hScope
  rw [Graph.render, hLabel, hNodes, ← hCodes]
  cases hState : d'.current with
  | mk label' origin' instrs lines slots constants scopeSize =>
    rw [hState] at hConstants hSlots hInstrs hLines hBlock hOrigin hScope
    rw [CodeBlock.mk.injEq]
    exact ⟨hBlock, hOrigin, hInstrs, hLines, hSlots, hConstants, hScope⟩

theorem lowerBlock_eq_ok {label : Label} {b : BlockId} {u : Unit}
    (h : lowerBlock g label b d = .ok u d') :
    ∃ nodes d₁, g.block? b = some nodes ∧
      lowerNodes g nodes { d with current := { label, origin := b } } = .ok () d₁ ∧
      finishBlock d₁ = .ok () d' := by
  obtain ⟨u₀, d₀, hBegin, h⟩ := Outcome.bind_eq_ok_iff.mp h
  cases hBegin
  cases hBlock : g.block? b with
  | none =>
    rw [hBlock] at h
    cases h
  | some nodes =>
    rw [hBlock] at h
    obtain ⟨u₁, d₁, hLower, hFinish⟩ := Outcome.bind_eq_ok_iff.mp h
    exact ⟨nodes, d₁, rfl, hLower, hFinish⟩

theorem lowerBlock_ok {b : BlockId} {u : Unit} (hs : Settled g roots d done spares)
    (hNext : d.registered[done.length]? = some b)
    (h : lowerBlock g ⟨d.finished.length⟩ b d = .ok u d') :
    ∃ spare, Settled g roots d' (done ++ [b]) (spares ++ [spare]) ∧
      d.registered <+: d'.registered := by
  obtain ⟨nodes, d₂, hBlock, hLower, hFinish⟩ := lowerBlock_eq_ok h
  cases hFinish
  have hCoherent : Draft.Coherent { d with current := { label := ⟨d.finished.length⟩, origin := b } } :=
    fun _ hc => nomatch hc
  obtain ⟨hNodes, spare, is, hLengths, hAdvance, hCodes⟩ := lowerNodes_ok hCoherent hLower
  have hLabels : d.registered <+: d₂.registered := hAdvance.toRegisters.labels
  have hAll : g.nodes b = nodes := Graph.nodes_eq hBlock
  have hMem : b ∈ d.registered := List.mem_of_getElem? hNext
  have hTarget (t : BlockId) : t ∈ d₂.registered ↔ t ∈ d.registered ∨ t ∈ Node.targets nodes := by
    rw [hAdvance.registered, mem_foldl_enlist]
  refine ⟨spare, ?_, hLabels⟩
  exact {
    nodup := by
      rw [hAdvance.registered]
      exact nodup_foldl_enlist hs.nodup _
    exist := hAdvance.exist hs.exist
    reachable := fun t ht => by
      rcases (hTarget t).mp ht with ht | ht
      · exact hs.reachable t ht
      · obtain ⟨n, hn, ht⟩ := List.mem_flatMap.mp ht
        exact .step (hs.reachable b hMem) hBlock hn ht
    registered := (hs.prefix_of_next hNext).trans hLabels
    length := by
      rw [hAdvance.finished, List.length_append, List.length_append]
      exact congrArg (· + 1) hs.length
    keys := by
      rw [hAdvance.keys, hs.keys, Graph.operandsOf, Graph.operandsOf, List.flatMap_append,
        List.foldl_append, List.flatMap_singleton, hAll]
    allotted := by
      have hAllotted := hAdvance.allotted _ hs.allotted
      rwa [List.flatten_append, List.flatten_singleton, List.flatten_append]
    covers := fun c hc => by
      rcases List.mem_append.mp hc with hc | hc
      · exact (hs.covers c hc).mono hLabels
      · rw [List.mem_singleton.mp hc]
        exact ⟨hs.exist b hMem, hAll ▸ hNodes, fun t ht => (hTarget t).mpr (.inr (hAll ▸ ht))⟩
    joints := by
      rw [List.map_append, hs.joints, List.map_append, List.map_singleton, List.map_singleton,
        hLengths, hAll]
    blocks := fun pl hAgrees => by
      have hAgrees₂ : d₂.Agrees pl := ⟨hAgrees.slot, hAgrees.label⟩
      have hAgrees₁ := hAdvance.agrees hAgrees₂
      have hLabel : pl.label b = ⟨d.finished.length⟩ := by
        rw [hs.length]
        exact hAgrees₁.label _ b hNext
      have hBefore := hs.blocks pl ⟨hAgrees₁.slot, hAgrees₁.label⟩
      have hAfter := current_eq_render rfl hLabel hAll hAgrees₂ hAdvance (hCodes pl hAgrees₂)
      rw [List.zipWith_append (Graph.length_eq_of_joints hs.joints), ← hBefore,
        hAdvance.finished, hAfter]
      rfl
    events := by
      have hInstrs : d₂.current.instrs = is := hAdvance.instrs
      have hBlockLabel : d₂.current.label = ⟨d.finished.length⟩ := hAdvance.label
      rw [hAdvance.events, hs.events, hAdvance.finished, List.flatMap_append,
        List.flatMap_singleton, CodeBlock.reports, hInstrs, hBlockLabel, List.append_assoc] }

/-- Unless the blocks run out first, each turn finishes one more block. -/
theorem lowerPending_ok {n : Nat} {u : Unit} (hs : Settled g roots d done spares)
    (h : lowerPending g n d = .ok u d') :
    ∃ done' spares', Settled g roots d' done' spares' ∧ d.registered <+: d'.registered ∧
      (done'.length = d'.registered.length ∨ done.length + n ≤ done'.length) := by
  induction n generalizing d done spares with
  | zero =>
    cases h
    exact ⟨done, spares, hs, List.prefix_rfl, .inr (Nat.le_refl _)⟩
  | succ n ih =>
    rw [lowerPending] at h
    obtain ⟨d₀, d₁, hGet, h⟩ := Outcome.bind_eq_ok_iff.mp h
    cases hGet
    cases hNext : d.registered[d.finished.length]? with
    | none =>
      rw [hNext] at h
      cases h
      have hLe := List.getElem?_eq_none_iff.mp hNext
      rw [hs.length] at hLe
      exact ⟨done, spares, hs, List.prefix_rfl,
        .inl (Nat.le_antisymm hs.registered.length_le hLe)⟩
    | some b =>
      rw [hNext] at h
      obtain ⟨u, d₁, hBlock, hRest⟩ := Outcome.bind_eq_ok_iff.mp h
      rw [hs.length] at hNext
      obtain ⟨spare, hs₁, hFirst⟩ := lowerBlock_ok hs hNext hBlock
      obtain ⟨done', spares', hs', hMore, hEnd⟩ := ih hs₁ hRest
      refine ⟨done', spares', hs', hFirst.trans hMore, hEnd.imp id fun hTurns => ?_⟩
      rw [List.length_append, List.length_singleton] at hTurns
      omega

theorem settled_of_root {root : BlockId} (hRoot : root ∈ roots)
    (hs : Settled g roots d done spares) (h : Advance g d d' [] [root] [] [] []) :
    Settled g roots d' done spares := by
  have hRegistered : d'.registered = enlist d.registered root := h.registered
  exact {
    nodup := hRegistered ▸ nodup_enlist hs.nodup root
    exist := h.exist hs.exist
    reachable := fun b hb => by
      rw [hRegistered, mem_enlist] at hb
      rcases hb with hb | rfl
      · exact hs.reachable b hb
      · exact .root hRoot
    registered := hs.registered.trans h.toRegisters.labels
    length := h.finished ▸ hs.length
    keys := h.keys.trans hs.keys
    allotted := by
      have hAllotted := h.allotted _ hs.allotted
      rwa [List.append_nil] at hAllotted
    covers := fun b hb => (hs.covers b hb).mono h.toRegisters.labels
    joints := hs.joints
    blocks := fun pl hAgrees => h.finished.trans (hs.blocks pl (h.agrees hAgrees))
    events := by rw [h.events, hs.events, h.finished, List.map_nil, List.append_nil] }

theorem lowerRoot_ok {root : BlockId} {l : Label} (hRoot : root ∈ roots)
    (hs : Settled g roots d d.registered spares) (h : lowerRoot g root d = .ok l d') :
    (∃ spares', Settled g roots d' d'.registered spares') ∧
      enlist d.registered root <+: d'.registered ∧ d'.registered[l.index]? = some root := by
  obtain ⟨label, d₁, hLabel, h⟩ := Outcome.bind_eq_ok_iff.mp h
  obtain ⟨u, d₂, hPending, hReturn⟩ := Outcome.bind_eq_ok_iff.mp h
  cases hReturn
  obtain ⟨hMem, h₁⟩ := labelFor_ok hLabel
  have hs₁ : Settled g roots d₁ d.registered spares := settled_of_root hRoot hs h₁
  obtain ⟨done, spares', hs', hMore, hEnd⟩ := lowerPending_ok hs₁ hPending
  have hAll : done = d'.registered := by
    apply hs'.registered.eq_of_length
    have hBlocks := hs'.length_registered_le
    have hDone := hs'.registered.length_le
    omega
  have hRegistered : d₁.registered = enlist d.registered root := h₁.registered
  exact ⟨⟨spares', hAll ▸ hs'⟩, hRegistered ▸ hMore, getElem?_of_extends hMore hMem⟩

theorem mapM_lowerRoot_ok {rs : List BlockId} {labels : List Label} (hRoots : ∀ r ∈ rs, r ∈ roots)
    (hs : Settled g roots d d.registered spares) (h : rs.mapM (lowerRoot g) d = .ok labels d') :
    (∃ spares', Settled g roots d' d'.registered spares') ∧
      d.registered <+: d'.registered ∧ ∀ r ∈ rs, r ∈ d'.registered := by
  induction rs generalizing d spares labels with
  | nil =>
    rw [List.mapM_nil] at h
    cases h
    exact ⟨⟨spares, hs⟩, List.prefix_rfl, fun _ hr => nomatch hr⟩
  | cons r rs ih =>
    rw [List.mapM_cons] at h
    obtain ⟨l, d₁, hRoot, h⟩ := Outcome.bind_eq_ok_iff.mp h
    obtain ⟨ls, d₂, hRest, hReturn⟩ := Outcome.bind_eq_ok_iff.mp h
    cases hReturn
    obtain ⟨hHead, hTail⟩ := List.forall_mem_cons.mp hRoots
    obtain ⟨⟨spares₁, hs₁⟩, hFirst, hLabel⟩ := lowerRoot_ok hHead hs hRoot
    obtain ⟨hs', hMore, hMem⟩ := ih hTail hs₁ hRest
    refine ⟨hs', (enlist_extends _ r).trans (hFirst.trans hMore), ?_⟩
    exact List.forall_mem_cons.mpr ⟨hMore.subset (List.mem_of_getElem? hLabel), hMem⟩

end Lowering

namespace Draft

variable {g : Graph} {roots : List BlockId} {d : Draft} {spares : List (List (List Slot))}

def layout (d : Draft) (spares : List (List (List Slot))) : Layout where
  slot o := (d.slotOf.lookup o).getD 0
  label b := ⟨d.registered.idxOf b⟩
  origins := d.registered
  spares := spares
  slotCount := d.nextSlot

theorem Settled.agrees_layout {done : List BlockId} (h : Settled g roots d done spares) :
    d.Agrees (d.layout spares).toPlacement where
  slot e he := by
    obtain ⟨front, back, hEntries⟩ := List.append_of_mem he
    have hNodup : (d.slotOf.map Prod.fst).Nodup := h.keys ▸ nodup_foldl_enlist List.nodup_nil _
    rw [hEntries, List.map_append, List.map_cons, List.nodup_append] at hNodup
    have hFound : d.slotOf.lookup e.1 = some e.2 := by
      refine List.lookup_eq_some_iff.mpr ⟨front, back, hEntries, fun f hf => ?_⟩
      have hNe := hNodup.2.2 f.1 (List.mem_map.mpr ⟨f, hf, rfl⟩) e.1 List.mem_cons_self
      exact bne_iff_ne.mpr hNe.symm
    change (d.slotOf.lookup e.1).getD 0 = e.2
    rw [hFound, Option.getD_some]
  label i b hb := by
    obtain ⟨hLt, hGet⟩ := List.getElem?_eq_some_iff.mp hb
    have hIndex : d.registered.idxOf b = i := hGet ▸ h.nodup.idxOf_getElem i hLt
    exact congrArg Label.mk hIndex

theorem Settled.slots_layout (h : Settled g roots d d.registered spares) :
    (g.operandsOf d.registered).map (d.layout spares).slot = d.slotOf.map Prod.snd := by
  rw [← h.keys, List.map_map]
  exact List.map_congr_left fun e he => h.agrees_layout.slot e he

end Draft

namespace Lowering

variable {g : Graph} {roots : List BlockId} {d' : Draft}

theorem lowerRoots_ok {p : Program} (h : lowerRoots g roots {} = .ok p d') :
    ∃ d spares, Draft.Settled g roots d d.registered spares ∧
      (∃ r, roots.head? = some r ∧ d.registered[0]? = some r) ∧
      (∀ r ∈ roots, r ∈ d.registered) ∧
      p = { blocks := d.finished.map fun b => { b with scopeSize := d.nextSlot }
            entry := ⟨0⟩
            slotCount := d.nextSlot } ∧
      d'.events = d.events ++ [.programDone d.finished.length d.nextSlot ⟨0⟩] := by
  obtain ⟨labels, d₁, hRoots, h⟩ := Outcome.bind_eq_ok_iff.mp h
  cases roots with
  | nil =>
    rw [List.mapM_nil] at hRoots
    cases hRoots
    cases h
  | cons r rs =>
    rw [List.mapM_cons] at hRoots
    obtain ⟨l, d₂, hRoot, hRoots⟩ := Outcome.bind_eq_ok_iff.mp hRoots
    obtain ⟨ls, d₃, hRest, hReturn⟩ := Outcome.bind_eq_ok_iff.mp hRoots
    cases hReturn
    cases h
    obtain ⟨⟨spares₁, hs₁⟩, hFirst, hLabel⟩ :=
      lowerRoot_ok List.mem_cons_self (Draft.settled_empty g (r :: rs)) hRoot
    obtain ⟨⟨spares, hs⟩, hMore, hMem⟩ :=
      mapM_lowerRoot_ok (fun _ => List.mem_cons_of_mem r) hs₁ hRest
    have hEntry : d₁.registered[l.index]? = some r := getElem?_of_extends hMore hLabel
    have hHead : d₁.registered[0]? = some r := getElem?_of_extends (hFirst.trans hMore) rfl
    have hZero : l.index = 0 := by
      have hLt := (List.getElem?_eq_some_iff.mp hEntry).1
      exact (List.getElem?_inj hLt hs.nodup).mp (hEntry.trans hHead.symm)
    have hFirstLabel : l = ⟨0⟩ := congrArg Label.mk hZero
    subst hFirstLabel
    exact ⟨d₁, spares, hs, ⟨r, rfl, hHead⟩,
      List.forall_mem_cons.mpr ⟨List.mem_of_getElem? hEntry, hMem⟩, rfl, rfl⟩

end Lowering

namespace Graph

/-- What lowers is the program of a sound layout, and every block of it is reported. -/
theorem exists_layout {g : Graph} {roots : List BlockId} {p : Program}
    {events : List Lowering.Event} (h : g.lowering roots = (.ok p, events)) :
    ∃ l : Layout, l.Sound g roots ∧ p = l.program g ∧
      events = p.blocks.flatMap CodeBlock.reports ++
        [.programDone p.blocks.length p.slotCount p.entry] := by
  rw [lowering] at h
  split at h
  · rename_i q d' hLower
    obtain ⟨hResult, rfl⟩ := Prod.mk.inj h
    cases hResult
    obtain ⟨d, spares, hs, hHead, hMem, hProgram, hEvents⟩ := Lowering.lowerRoots_ok hLower
    have hBlocks := hs.blocks _ hs.agrees_layout
    refine ⟨d.layout spares, ?_, ?_, ?_⟩
    · exact {
        nodup := hs.nodup
        label_eq := hs.agrees_layout.label
        head := hHead
        mem_of_root := hMem
        reachable := hs.reachable
        covers := hs.covers
        joints := hs.joints
        slots := hs.slots_layout ▸ hs.allotted }
    · rw [hProgram, hBlocks, List.map_zipWith]
      rfl
    · rw [hEvents, hs.events, hProgram, List.flatMap_map, List.length_map]
      rfl
  · obtain ⟨hResult, -⟩ := Prod.mk.inj h
    cases hResult

end Graph

end BlockMachine
