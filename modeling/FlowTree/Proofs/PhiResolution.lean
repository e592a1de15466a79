import FlowTree.Proofs.EdgeMoves

/-!
# Resolving φs

Which functions have copies on edges, and what these copies are, said in terms of the φs alone.

There are copies unless a φ is late, takes something from a block that is no predecessor, or
disagrees with the φs of its block about what a value takes from one predecessor.  The table of
copies is filled φ by φ and operand by operand, over all blocks.  A move that was asked for before is
not repeated, so in the end an edge has the moves that its end asks for in the order in which each is
asked for first.

That order needs an invariant about all edges at once, since the blocks are mixed in the table:
whatever was asked for on an edge so far, a step appends to it what it asks for there.  It is stated
for the moves as they were asked for, with repetitions; `collected?` then leaves out the repetitions.

## Main statements

* `EdgeCopies.ofFunc_collects` — the copy on an edge, with its order.
* `EdgeCopies.exists_ofFunc` — without defects there are copies.
* `EdgeCopies.ofFunc_resolves` — both, and the copies between slots.
-/

namespace FlowTree

variable {f : Func} {g : FlowGraph} {block : Block} {source target b : BlockId} {m : Move ValueId}

/-! ## What φs ask for -/

/-- On arrival from `source`, a leading φ of the block gives `dst` the operand `o`. -/
def Block.Gives (block : Block) (source : BlockId) (dst : ValueId) (o : Operand) : Prop :=
  ∃ incoming, Instr.phi dst incoming ∈ block.phis ∧ ⟨source, o⟩ ∈ incoming

/-- The moves that an instruction asks for on arrival from `source`, in order. -/
def Instr.movesFrom (source : BlockId) : Instr → List (Move ValueId)
  | .phi dst incoming => (incoming.filter fun i => i.source = source).map fun i =>
      ⟨dst, Source.ofOperand i.operand⟩
  | _ => []

/-- The moves that the leading φs ask for on arrival from `source`, in order and with repetitions. -/
def Block.movesFrom (block : Block) (source : BlockId) : List (Move ValueId) :=
  block.phis.flatMap (Instr.movesFrom source)

/-- A φ stands somewhere behind an instruction that is not a φ. -/
def Block.HasLatePhi (block : Block) : Prop :=
  ∃ before i after, block.instrs = before ++ i :: after ∧ i.isPhi = false ∧
    ∃ j ∈ after, j.isPhi = true

/-- A leading φ names a block from which control does not arrive. -/
def Block.HasStrayPhi (g : FlowGraph) (block : Block) : Prop :=
  ∃ source dst o, block.Gives source dst o ∧ ¬ g.Edge source block.id

/-- The leading φs give one value two different operands on arrival from one block. -/
def Block.HasConflict (block : Block) : Prop :=
  ∃ source dst o o', block.Gives source dst o ∧ block.Gives source dst o' ∧ o ≠ o'

theorem Source.ofOperand_inj {o o' : Operand} : ofOperand o = ofOperand o' ↔ o = o' := by
  cases o <;> cases o' <;> simp [ofOperand]

/-- Operand by operand, a φ asks for a move or for nothing. -/
theorem Instr.movesFrom_phi (source : BlockId) (dst : ValueId) (incoming : List Incoming) :
    (Instr.phi dst incoming).movesFrom source = incoming.flatMap fun i =>
      if source = i.source then [⟨dst, Source.ofOperand i.operand⟩] else [] := by
  rw [movesFrom]
  induction incoming with
  | nil => rfl
  | cons i rest ih =>
    by_cases hi : i.source = source
    · simp [hi, ih]
    · simp [hi, Ne.symm hi, ih]

theorem Block.mem_movesFrom : m ∈ block.movesFrom source ↔ block.Takes source m := by
  simp only [movesFrom, List.mem_flatMap, Takes]
  constructor
  · rintro ⟨i, hi, hm⟩
    cases i with
    | phi dst incoming =>
      simp only [Instr.movesFrom, List.mem_map, List.mem_filter, decide_eq_true_eq] at hm
      obtain ⟨i, ⟨hmem, hsource⟩, rfl⟩ := hm
      exact ⟨dst, incoming, hi, i, hmem, hsource, rfl⟩
    | _ => cases hm
  · rintro ⟨dst, incoming, hi, i, hmem, hsource, rfl⟩
    exact ⟨_, hi, List.mem_map.2 ⟨i, List.mem_filter.2 ⟨hmem, by simpa using hsource⟩, rfl⟩⟩

theorem Block.takes_iff :
    block.Takes source m ↔ ∃ dst o, block.Gives source dst o ∧ m = ⟨dst, Source.ofOperand o⟩ := by
  constructor
  · rintro ⟨dst, incoming, hphi, ⟨_, o⟩, hi, rfl, rfl⟩
    exact ⟨dst, o, ⟨incoming, hphi, hi⟩, rfl⟩
  · rintro ⟨dst, o, ⟨incoming, hphi, hi⟩, rfl⟩
    exact ⟨dst, incoming, hphi, ⟨source, o⟩, hi, rfl, rfl⟩

theorem Block.movesFrom_ne_nil : block.movesFrom source ≠ [] ↔ ∃ dst o, block.Gives source dst o := by
  constructor
  · intro hne
    obtain ⟨m, hm⟩ := List.exists_mem_of_ne_nil _ hne
    obtain ⟨dst, o, hgives, _⟩ := takes_iff.1 (mem_movesFrom.1 hm)
    exact ⟨dst, o, hgives⟩
  · rintro ⟨dst, o, hgives⟩
    exact List.ne_nil_of_mem (mem_movesFrom.2 (takes_iff.2 ⟨dst, o, hgives, rfl⟩))

/-- A φ is late exactly if it is behind the leading φs. -/
theorem Block.hasLatePhi_iff : block.HasLatePhi ↔ ∃ j ∈ block.body, j.isPhi = true := by
  constructor
  · rintro ⟨before, i, after, hinstrs, hi, j, hj, hphi⟩
    refine ⟨j, ?_, hphi⟩
    have hrest : (i :: after).dropWhile Instr.isPhi = i :: after :=
      List.dropWhile_cons_of_neg (by simp [hi])
    rw [body, hinstrs, List.dropWhile_append, hrest]
    split
    · exact List.mem_cons_of_mem i hj
    · exact List.mem_append_right _ (List.mem_cons_of_mem i hj)
  · rintro ⟨j, hj, hphi⟩
    cases hbody : block.body with
    | nil =>
      rw [hbody] at hj
      cases hj
    | cons i after =>
      -- the first instruction behind the leading φs is none itself
      have hi : i.isPhi = false := by
        have := List.head?_dropWhile_not Instr.isPhi block.instrs
        rw [← body, hbody] at this
        simpa using this
      refine ⟨block.phis, i, after, hbody ▸ block.phis_append_body.symm, hi, j, ?_, hphi⟩
      rw [hbody, List.mem_cons] at hj
      refine hj.resolve_left fun he => ?_
      rw [he, hi] at hphi
      cases hphi

namespace EdgeCopies

variable {e e' : EdgeCopies} {edge : BlockId × BlockId} {asked : List (Move ValueId)}

/-! ## In order -/

/-- The copy that moves come down to which are asked for in the given order: each stands where it is
asked for first.  There is none if nothing is asked for. -/
def collected? (asked : List (Move ValueId)) : Option (ParallelCopy ValueId) :=
  if asked = [] then none else some ⟨asked.eraseDups⟩

theorem moves_collected? (asked : List (Move ValueId)) :
    ((collected? asked).map ParallelCopy.moves).getD [] = asked.eraseDups := by
  unfold collected?
  split
  · rename_i hnil
    simp [hnil]
  · rfl

theorem collected?_concat_of_mem (hm : m ∈ asked) : collected? (asked ++ [m]) = collected? asked := by
  have hne : asked ≠ [] := List.ne_nil_of_mem hm
  simp [collected?, hne, List.eraseDups_append, List.removeAll, hm]

theorem collected?_concat_of_not_mem (hm : m ∉ asked) :
    collected? (asked ++ [m]) = some ⟨asked.eraseDups ++ [m]⟩ := by
  simp [collected?, List.eraseDups_append, List.removeAll, hm, List.eraseDups_cons]

/-- Whatever was asked for on an edge before, what `new` asks for there comes behind it. -/
def Collects (new : BlockId × BlockId → List (Move ValueId)) (e e' : EdgeCopies) : Prop :=
  ∀ edge asked, e.entries.lookup edge = collected? asked →
    e'.entries.lookup edge = collected? (asked ++ new edge)

theorem Collects.congr {new new' : BlockId × BlockId → List (Move ValueId)} (h : Collects new e e')
    (hnew : ∀ edge, new edge = new' edge) : Collects new' e e' :=
  (funext hnew : new = new') ▸ h

/-- **One move** is asked for on its edge and nowhere else. -/
theorem add?_collects (h : e.add? edge m = some e') :
    Collects (fun edge' => if edge' = edge then [m] else []) e e' := by
  intro edge' asked hasked
  dsimp only
  by_cases he : edge' = edge
  · subst he
    have hmoves : e.movesOn edge' = asked.eraseDups := by
      rw [movesOn, hasked, moves_collected?]
    rw [if_pos rfl]
    rcases add?_lookup h with ⟨rfl, hm⟩ | ⟨hfresh, hlookup⟩
    · rw [hmoves, List.mem_eraseDups] at hm
      rw [hasked, collected?_concat_of_mem hm]
    · have hm : m ∉ asked := by
        intro hm
        refine hfresh (List.mem_map_of_mem ?_)
        rw [hmoves]
        exact List.mem_eraseDups.2 hm
      rw [hlookup, if_pos rfl, hmoves, collected?_concat_of_not_mem hm]
  · rw [if_neg he, List.append_nil]
    rcases add?_lookup h with ⟨rfl, _⟩ | ⟨_, hlookup⟩
    · exact hasked
    · rw [hlookup, if_neg he, hasked]

/-- **A loop** asks for what its steps ask for, one after the other. -/
theorem foldlM_collects {α : Type} {step : EdgeCopies → α → Attempt EdgeCopies} {as : List α}
    (new : α → BlockId × BlockId → List (Move ValueId)) (h : as.foldlM step e = .ok e')
    (hstep : ∀ a c c', step c a = .ok c' → Collects (new a) c c') :
    Collects (fun edge => as.flatMap fun a => new a edge) e e' := by
  intro edge asked hasked
  refine foldlM_induction (fun passed c => c.entries.lookup edge =
    collected? (asked ++ passed.flatMap fun a => new a edge)) h (by simpa using hasked) ?_
  intro passed a later c c' _ hc hc'
  rw [hstep a c c' hc' edge _ hc, List.flatMap_append, List.append_assoc]
  simp

theorem addPhi_collects {i : Instr} (h : addPhi g b e i = .ok e') :
    Collects (fun edge => if edge.2 = b then i.movesFrom edge.1 else []) e e' := by
  cases i with
  | phi dst incoming =>
    refine (foldlM_collects _ h fun i c c' h => add?_collects (addIncoming_cases h).2).congr ?_
    rintro ⟨source, target⟩
    by_cases hb : target = b
    · simp [hb, Instr.movesFrom_phi]
    · simp [hb]
  | _ =>
    rw [addPhi, pure_eq_ok] at h
    · intro edge asked hasked
      simpa [h, Instr.movesFrom] using hasked
    · simp

theorem addBlock_collects (h : addBlock g e block = .ok e') :
    Collects (fun edge => if edge.2 = block.id then block.movesFrom edge.1 else []) e e' := by
  refine (foldlM_collects _ (addBlock_cases h).2 fun i c c' => addPhi_collects).congr fun edge => ?_
  split
  · rfl
  · simp

/-- **The copy on an edge**, moves in the order in which its end asks for them. -/
theorem ofFunc_collects (hd : g.Describes f) (h : ofFunc f g = .ok e) (source target : BlockId) :
    e.get? source target =
      collected? (((f.block? target).map fun block => block.movesFrom source).getD []) := by
  have hnone : List.lookup (source, target) ({} : EdgeCopies).entries = collected? [] := rfl
  rw [get?, foldlM_collects _ h (fun block c c' => addBlock_collects) _ _ hnone, List.nil_append,
    ← hd.flatMap_blocks]

/-- An edge has a copy if its end asks for something, and it is what was asked for. -/
theorem get?_eq_some_iff {copy : ParallelCopy ValueId} (hd : g.Describes f)
    (h : ofFunc f g = .ok e) :
    e.get? source target = some copy ↔ ∃ block, f.block? target = some block ∧
      block.movesFrom source ≠ [] ∧ copy.moves = (block.movesFrom source).eraseDups := by
  rw [ofFunc_collects hd h]
  cases f.block? target with
  | none => simp [collected?]
  | some block =>
    simp only [Option.map_some, Option.getD_some, Option.some.injEq, exists_eq_left', collected?]
    obtain ⟨moves⟩ := copy
    by_cases hnil : block.movesFrom source = []
    · simp [hnil]
    · simp [hnil, eq_comm]

/-! ## Functions with copies -/

/-- A move can be added where nothing else is moved to its destination. -/
theorem exists_add? (h : ∀ m' ∈ e.movesOn edge, m'.dst = m.dst → m'.src = m.src) :
    ∃ e', e.add? edge m = some e' := by
  unfold add?
  split
  · exact ⟨_, rfl⟩
  · rename_i copy hcopy
    split
    · exact ⟨_, rfl⟩
    · rename_i src hsource
      obtain ⟨m', hm', rfl⟩ := Option.map_eq_some_iff.1 hsource
      have hmem : m' ∈ e.movesOn edge := by
        simpa [movesOn, hcopy] using List.mem_of_find?_eq_some hm'
      have hdst : m'.dst = m.dst := by simpa using List.find?_some hm'
      exact ⟨e, if_pos (h m' hmem hdst)⟩

/-- All moves were asked for by the ends of their edges. -/
def AskedBy (f : Func) (e : EdgeCopies) : Prop :=
  ∀ source target m, m ∈ e.movesOn (source, target) →
    ∃ block, f.block? target = some block ∧ block.Takes source m

/-- Without defects, each operand of a leading φ can be added. -/
theorem exists_addIncoming {dst : ValueId} {incoming : List Incoming} {i : Incoming}
    (hd : g.Describes f) (hblock : block ∈ f.blocks) (hstray : ¬ block.HasStrayPhi g)
    (hconflict : ¬ block.HasConflict) (hphi : .phi dst incoming ∈ block.phis) (hi : i ∈ incoming)
    (he : e.AskedBy f) : ∃ e', addIncoming g block.id dst e i = .ok e' ∧ e'.AskedBy f := by
  have hb : f.block? block.id = some block := hd.block?_id hblock
  have hgives : block.Gives i.source dst i.operand := ⟨incoming, hphi, hi⟩
  have hedge : g.Edge i.source block.id :=
    Classical.not_not.1 fun hno => hstray ⟨_, _, _, hgives, hno⟩
  obtain ⟨preds, hpreds, hsource⟩ := (hd.preds_iff _ _).2 hedge
  obtain ⟨e', hadd⟩ :
      ∃ e', e.add? (i.source, block.id) ⟨dst, Source.ofOperand i.operand⟩ = some e' := by
    refine exists_add? fun m' hm' hdst => ?_
    obtain ⟨block', hb', htakes⟩ := he _ _ _ hm'
    cases hb.symm.trans hb'
    obtain ⟨dst', o, hgives', rfl⟩ := Block.takes_iff.1 htakes
    obtain rfl : dst' = dst := hdst
    exact Source.ofOperand_inj.2 <|
      Classical.not_not.1 fun hne => hconflict ⟨_, _, _, _, hgives', hgives, hne⟩
  refine ⟨e', ?_, fun source target m hm => ?_⟩
  · have hpreds' : g.predecessors block.id = .ok preds := Table.get_eq_ok_iff.2 hpreds
    simp [addIncoming, hpreds', hsource, hadd]
  · rcases (add?_adds hadd).mem_iff.1 hm with hm | ⟨hedge, rfl⟩
    · exact he _ _ _ hm
    · cases hedge
      exact ⟨block, hb, Block.takes_iff.2 ⟨_, _, hgives, rfl⟩⟩

theorem exists_addBlock (hd : g.Describes f) (hblock : block ∈ f.blocks)
    (hlate : ¬ block.HasLatePhi) (hstray : ¬ block.HasStrayPhi g) (hconflict : ¬ block.HasConflict)
    (he : e.AskedBy f) : ∃ e', addBlock g e block = .ok e' ∧ e'.AskedBy f := by
  have hbody : ¬ block.body.any Instr.isPhi = true := fun hany =>
    hlate (Block.hasLatePhi_iff.2 (List.any_eq_true.1 hany))
  rw [addBlock, if_neg hbody]
  refine exists_foldlM_eq_ok (AskedBy f) he fun i hi c hc => ?_
  cases i with
  | phi dst incoming =>
    exact exists_foldlM_eq_ok (AskedBy f) hc fun i hmem c hc =>
      exists_addIncoming hd hblock hstray hconflict hi hmem hc
  | _ => exact ⟨c, rfl, hc⟩

end EdgeCopies

/-- Some block has a late φ, a φ that takes something from a block that is no predecessor, or φs that
disagree. -/
def Func.HasPhiDefect (f : Func) (g : FlowGraph) : Prop :=
  ∃ block ∈ f.blocks, block.HasLatePhi ∨ block.HasStrayPhi g ∨ block.HasConflict

namespace EdgeCopies

variable {e : EdgeCopies}

theorem exists_ofFunc (hd : g.Describes f) (hf : ¬ f.HasPhiDefect g) : ∃ e, ofFunc f g = .ok e := by
  have hempty : AskedBy f {} := fun _ _ _ hm => by cases hm
  obtain ⟨e, he, _⟩ := exists_foldlM_eq_ok (AskedBy f) hempty fun block hblock c hc => by
    have hblock' := fun h => hf ⟨block, hblock, h⟩
    simp only [imp_false, not_or] at hblock'
    exact exists_addBlock hd hblock hblock'.1 hblock'.2.1 hblock'.2.2 hc
  exact ⟨e, he⟩

/-- Where there are copies, no φ has a defect. -/
theorem not_hasPhiDefect (hd : g.Describes f) (h : ofFunc f g = .ok e) : ¬ f.HasPhiDefect g := by
  have hblocks : ∀ block ∈ f.blocks, ∃ c c', addBlock g c block = .ok c' :=
    forall_of_foldlM_eq_ok h fun block c c' hstep => ⟨c, c', hstep⟩
  rintro ⟨block, hblock, hlate | ⟨source, dst, o, ⟨incoming, hphi, hi⟩, hno⟩ |
    ⟨source, dst, o, o', hgives, hgives', hne⟩⟩
  · obtain ⟨c, c', hstep⟩ := hblocks block hblock
    exact (addBlock_cases hstep).1 (Block.hasLatePhi_iff.1 hlate)
  · obtain ⟨c, c', hstep⟩ := hblocks block hblock
    obtain ⟨c, c', hphis⟩ := forall_of_foldlM_eq_ok
      (P := fun i => ∃ c c', addPhi g block.id c i = .ok c') (addBlock_cases hstep).2
      (fun i c c' h => ⟨c, c', h⟩) _ hphi
    have hedge := forall_of_foldlM_eq_ok (P := fun i : Incoming => g.preds.Edge block.id i.source)
      hphis (fun i c c' h => (addIncoming_cases h).1) _ hi
    exact hno ((hd.preds_iff _ _).1 hedge)
  · -- both moves are on the edge, which has at most one into each value
    obtain ⟨hdistinct, hmem⟩ := ofFunc_adds hd h
    have hb := hd.block?_id hblock
    have hm := (hmem _ _ _).2 ⟨block, hb, Block.takes_iff.2 ⟨_, _, hgives, rfl⟩⟩
    have hm' := (hmem _ _ _).2 ⟨block, hb, Block.takes_iff.2 ⟨_, _, hgives', rfl⟩⟩
    have heq := List.inj_on_of_nodup_map (hdistinct (source, block.id)) hm hm' rfl
    exact hne (Source.ofOperand_inj.1 (Move.mk.inj heq).2)

/-- **φs are resolved exactly.**  A function is refused, as malformed, if and only if one of its φs has
a defect.  Otherwise an edge has a copy if a leading φ at its end takes something from its start;
the copy writes no value twice and consists of what is taken, each move where it is asked for first.
The slot copies of a block stand at the positions of its successors, empty where there is no copy. -/
theorem ofFunc_resolves (hg : FlowGraph.ofFunc f = .ok g) :
    ((∃ b defect, ofFunc f g = .error (.refused (.malformed b defect))) ↔ f.HasPhiDefect g) ∧
    (¬ f.HasPhiDefect g → ∃ e, ofFunc f g = .ok e ∧
      (∀ source target, (e.get? source target).isSome ↔
        ∃ block, f.block? target = some block ∧ ∃ dst o, block.Gives source dst o) ∧
      (∀ source target copy, e.get? source target = some copy → copy.defs.Nodup ∧
        ∃ block, f.block? target = some block ∧ copy.moves = (block.movesFrom source).eraseDups) ∧
      ∀ layout, ∃ copies, e.onSlots g layout = .ok copies ∧
        ∀ source block, f.block? source = some block →
          copies.get? source = some (block.terminator.successors.map fun target =>
            ((e.get? source target).map (ParallelCopy.onSlots layout)).getD ∅)) := by
  have hd := FlowGraph.ofFunc_describes hg
  refine ⟨⟨?_, fun hf => ?_⟩, fun hf => ?_⟩
  · rintro ⟨b, defect, herror⟩
    by_contra hf
    obtain ⟨e, he⟩ := exists_ofFunc hd hf
    cases he.symm.trans herror
  · refine (ofFunc_outcome hd).resolve_left ?_
    rintro ⟨e, he⟩
    exact not_hasPhiDefect hd he hf
  · obtain ⟨e, he⟩ := exists_ofFunc hd hf
    refine ⟨e, he, fun source target => ?_, fun source target copy hcopy => ?_, fun layout => ?_⟩
    · simp only [Option.isSome_iff_exists, get?_eq_some_iff hd he, ← Block.movesFrom_ne_nil]
      constructor
      · rintro ⟨copy, block, hblock, hne, _⟩
        exact ⟨block, hblock, hne⟩
      · rintro ⟨block, hblock, hne⟩
        exact ⟨⟨_⟩, block, hblock, hne, rfl⟩
    · obtain ⟨block, hblock, _, hmoves⟩ := (get?_eq_some_iff hd he).1 hcopy
      refine ⟨?_, block, hblock, hmoves⟩
      have hnodup := (ofFunc_adds hd he).1 (source, target)
      rwa [movesOn, ← get?, hcopy] at hnodup
    · obtain ⟨copies, hcopies⟩ := exists_onSlots e g layout
      refine ⟨copies, hcopies, fun source block hblock => ?_⟩
      exact onSlots_cases hcopies (hd.successors_iff.2 ⟨block, hblock, rfl⟩)

/-- Two edges lead from the first block into a loop of one block, whose φs take each other's values.
The first of them takes the same from the first block twice, and is written again by the last. -/
def rotates (last : Operand) : Func where
  name := "rotates"
  params := [⟨0⟩]
  valueCount := 3
  blocks := [
    { id := ⟨0⟩, instrs := [], terminator := .condBr (.value ⟨0⟩) ⟨1⟩ ⟨1⟩ },
    { id := ⟨1⟩
      instrs := [
        .phi ⟨1⟩ [⟨⟨0⟩, .const (.int 7)⟩, ⟨⟨1⟩, .value ⟨2⟩⟩, ⟨⟨0⟩, .const (.int 7)⟩],
        .phi ⟨2⟩ [⟨⟨1⟩, .value ⟨1⟩⟩, ⟨⟨0⟩, .value ⟨0⟩⟩],
        .phi ⟨1⟩ [⟨⟨1⟩, last⟩]]
      terminator := .condBr (.value ⟨1⟩) ⟨1⟩ ⟨2⟩ },
    { id := ⟨2⟩, instrs := [], terminator := .ret none }]

/-- If the last φ repeats the first, each edge has its two moves; if not, the function is refused. -/
theorem rotates_resolves :
    (∃ g, FlowGraph.ofFunc (rotates (.value ⟨2⟩)) = .ok g ∧
      ¬ (rotates (.value ⟨2⟩)).HasPhiDefect g ∧ ∃ e, ofFunc (rotates (.value ⟨2⟩)) g = .ok e ∧
        e.get? ⟨0⟩ ⟨1⟩ = some ⟨[⟨⟨1⟩, .const (.int 7)⟩, ⟨⟨2⟩, .loc ⟨0⟩⟩]⟩ ∧
        e.get? ⟨1⟩ ⟨1⟩ = some ⟨[⟨⟨1⟩, .loc ⟨2⟩⟩, ⟨⟨2⟩, .loc ⟨1⟩⟩]⟩ ∧ e.get? ⟨1⟩ ⟨2⟩ = none ∧
        ∃ copies, e.onSlots g (.onePerValue (rotates (.value ⟨2⟩))) = .ok copies ∧
          copies.get? ⟨1⟩ = some [⟨[⟨⟨1⟩, .loc ⟨2⟩⟩, ⟨⟨2⟩, .loc ⟨1⟩⟩]⟩, ∅]) ∧
    ∃ g, FlowGraph.ofFunc (rotates (.value ⟨1⟩)) = .ok g ∧ (rotates (.value ⟨1⟩)).HasPhiDefect g := by
  have hrun : ((FlowGraph.ofFunc (rotates (.value ⟨2⟩))).bind fun g =>
      (ofFunc (rotates (.value ⟨2⟩)) g).map fun e =>
        (e.get? ⟨0⟩ ⟨1⟩, e.get? ⟨1⟩ ⟨1⟩, e.get? ⟨1⟩ ⟨2⟩)) =
      .ok (some ⟨[⟨⟨1⟩, .const (.int 7)⟩, ⟨⟨2⟩, .loc ⟨0⟩⟩]⟩,
        some ⟨[⟨⟨1⟩, .loc ⟨2⟩⟩, ⟨⟨2⟩, .loc ⟨1⟩⟩]⟩, none) := by decide +kernel
  have hrefused : ((FlowGraph.ofFunc (rotates (.value ⟨1⟩))).map fun g =>
      ofFunc (rotates (.value ⟨1⟩)) g) =
      .ok (.error (.refused (.malformed ⟨1⟩ (.conflictingValues ⟨1⟩ ⟨1⟩)))) := by decide +kernel
  constructor
  · cases hg : FlowGraph.ofFunc (rotates (.value ⟨2⟩)) with
    | error stop => rw [hg] at hrun; cases hrun
    | ok g =>
      obtain ⟨hdefect, hresolved⟩ := ofFunc_resolves hg
      have hfine : ¬ (rotates (.value ⟨2⟩)).HasPhiDefect g := by
        rw [← hdefect]
        rintro ⟨b, defect, herror⟩
        rw [hg] at hrun
        simp only [Except.bind, herror] at hrun
        cases hrun
      obtain ⟨e, he, _, _, hslots⟩ := hresolved hfine
      obtain ⟨copies, hcopies, hget⟩ := hslots (.onePerValue (rotates (.value ⟨2⟩)))
      rw [hg] at hrun
      simp only [Except.bind, he, Except.map, Except.ok.injEq, Prod.mk.injEq] at hrun
      obtain ⟨hfirst, hself, hlast⟩ := hrun
      refine ⟨g, rfl, hfine, e, he, hfirst, hself, hlast, copies, hcopies, ?_⟩
      rw [hget ⟨1⟩ _ rfl]
      simp only [Terminator.successors, List.map_cons, List.map_nil, hself, hlast]
      decide +kernel
  · cases hg : FlowGraph.ofFunc (rotates (.value ⟨1⟩)) with
    | error stop => rw [hg] at hrefused; cases hrefused
    | ok g =>
      rw [hg] at hrefused
      exact ⟨g, rfl, (ofFunc_resolves hg).1.1 ⟨_, _, Except.ok.inj hrefused⟩⟩

end EdgeCopies

end FlowTree
