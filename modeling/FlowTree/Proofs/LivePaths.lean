import FlowTree.Proofs.FaultFree
import Mathlib.Order.Bounds.Basic

/-!
# Live slots and paths

A slot is live at the start of a block if control can go from there to a place where the slot is
read, along a path on which nothing writes it.  Liveness says so for every block, also for those
that control never gets to.

Two things make this hold.  The sweeps leave a solution of the flow equations, so liveness goes
backwards along every such path.  And what they leave is the least solution, so nothing is live that
is only kept alive by itself, around a loop that never reads it.

## Main statements

* `Liveness.ofFunc_solves`, `Liveness.liveIn_of_closed` — the sweeps leave the least solution.
* `Liveness.onPath_solves` — so do paths.
* `Liveness.liveIn_iff_path` — what is live at the start of a block.
-/

namespace FlowTree.Liveness

open Relation

/-! ## Paths and equations -/

section Paths

variable (f : Func) (copies : SlotCopies) (layout : Layout)

/-- Block `b` reads and writes the slots of `effect`. -/
def HasEffect (b : BlockId) (effect : Effect) : Prop :=
  ∃ block, f.block? b = some block ∧ Effect.ofBlock layout block = .ok effect

/-- The edge of block `b` at `position` leads to `target`, and the slots of `edge` are read and
written on it. -/
def HasEdge (b : BlockId) (position : Nat) (target : BlockId) (edge : EdgeEffect) : Prop :=
  ∃ block, f.block? b = some block ∧ block.terminator.successors[position]? = some target ∧
    EdgeEffect.ofEdge layout block ((copies.get? b).getD []) position = .ok edge

/-- Neither block `a` nor the edge at some position, which leads to `b`, writes the slot. -/
def Passes (s : SlotId) (a b : BlockId) : Prop :=
  ∃ effect position edge, HasEffect f layout a effect ∧ HasEdge f copies layout a position b edge ∧
    s ∉ effect.writes ∧ s ∉ edge.writes

/-- Block `b` reads the slot before writing it, or leaves it to an edge that reads it. -/
def Wants (s : SlotId) (b : BlockId) : Prop :=
  ∃ effect, HasEffect f layout b effect ∧ (s ∈ effect.reads ∨ s ∉ effect.writes ∧
    ∃ position target edge, HasEdge f copies layout b position target edge ∧ s ∈ edge.reads)

/-- What the flow equations ask for at the start of block `b`, where `P` is asked for at the starts
of its successors. -/
def Asks (P : BlockId → SlotId → Prop) (b : BlockId) (s : SlotId) : Prop :=
  ∃ effect, HasEffect f layout b effect ∧ (s ∈ effect.reads ∨ s ∉ effect.writes ∧
    ∃ position target edge, HasEdge f copies layout b position target edge ∧
      (s ∈ edge.reads ∨ P target s ∧ s ∉ edge.writes))

/-- At the start of every block there is what the flow equations ask for. -/
def Solves (P : BlockId → SlotId → Prop) : Prop := ∀ b s, P b s ↔ Asks f copies layout P b s

/-- A path leads from block `b` to where the slot is read, and nothing writes it on the way. -/
def OnPath (b : BlockId) (s : SlotId) : Prop :=
  ∃ c, ReflTransGen (Passes f copies layout s) b c ∧ Wants f copies layout s c

end Paths

variable {f : Func} {g : FlowGraph} {copies : SlotCopies} {layout : Layout} {options : Options}
  {l : Liveness} {P : BlockId → SlotId → Prop} {b : BlockId} {s : SlotId} {block : Block}

/-- What the equations ask for is wanted in the block itself, or passes through it. -/
theorem asks_iff : Asks f copies layout P b s ↔
    Wants f copies layout s b ∨ ∃ c, Passes f copies layout s b c ∧ P c s := by
  constructor
  · rintro ⟨effect, heffect, hread | ⟨hwrite, position, target, edge, hedge, hread | ⟨hP, hkeep⟩⟩⟩
    · exact .inl ⟨effect, heffect, .inl hread⟩
    · exact .inl ⟨effect, heffect, .inr ⟨hwrite, position, target, edge, hedge, hread⟩⟩
    · exact .inr ⟨target, ⟨effect, position, edge, heffect, hedge, hwrite, hkeep⟩, hP⟩
  · rintro (⟨effect, heffect, hread | ⟨hwrite, position, target, edge, hedge, hread⟩⟩ |
      ⟨c, ⟨effect, position, edge, heffect, hedge, hwrite, hkeep⟩, hP⟩)
    · exact ⟨effect, heffect, .inl hread⟩
    · exact ⟨effect, heffect, .inr ⟨hwrite, position, target, edge, hedge, .inl hread⟩⟩
    · exact ⟨effect, heffect, .inr ⟨hwrite, position, c, edge, hedge, .inr ⟨hP, hkeep⟩⟩⟩

/-! ## What paths ask for -/

/-- **Paths solve the flow equations.** -/
theorem onPath_solves : Solves f copies layout (OnPath f copies layout) := by
  intro b s
  rw [asks_iff]
  constructor
  · rintro ⟨c, hpath, hwants⟩
    rcases hpath.cases_head with rfl | ⟨d, hpass, hpath⟩
    · exact .inl hwants
    · exact .inr ⟨d, hpass, c, hpath, hwants⟩
  · rintro (hwants | ⟨d, hpass, c, hpath, hwants⟩)
    · exact ⟨b, .refl, hwants⟩
    · exact ⟨c, .head hpass hpath, hwants⟩

/-- What the equations ask for along a path, they ask for at its start. -/
theorem Solves.of_onPath (hP : Solves f copies layout P) (h : OnPath f copies layout b s) : P b s := by
  obtain ⟨c, hpath, hwants⟩ := h
  induction hpath using ReflTransGen.head_induction_on with
  | refl => exact (hP _ s).2 (asks_iff.2 (.inl hwants))
  | head hpass _ ih => exact (hP _ s).2 (asks_iff.2 (.inr ⟨_, hpass, ih⟩))

/-! ## What the sweeps leave -/

/-- What is needed at the end of a block, edge by edge. -/
theorem edges_iff {Q : BlockId → Prop} (hd : g.Describes f)
    (h : ofFunc f g copies layout options = .ok l) (hblock : f.block? b = some block) :
    (∃ position target, block.terminator.successors[position]? = some target ∧
      (s ∈ (copies.onEdge b position).uses ∨ Q target ∧ s ∉ (copies.onEdge b position).defs ∧
        s ∉ layout.slotsOf (block.terminator.definesOn position).toList)) ↔
    ∃ position target edge, HasEdge f copies layout b position target edge ∧
      (s ∈ edge.reads ∨ Q target ∧ s ∉ edge.writes) := by
  obtain ⟨flows, _, _, hflows, _⟩ := ofFunc_cases h
  obtain ⟨flow, _, hof⟩ := getElem?_of_mapM hflows hblock
  obtain ⟨_, targets, htargets, _, hedges⟩ := BlockFlow.ofBlock_cases hof
  rw [hd.id_eq hblock] at htargets hedges
  obtain ⟨block', hblock', rfl⟩ := hd.successors_iff.1 htargets
  cases hblock.symm.trans hblock'
  constructor
  · rintro ⟨position, target, ht, hs⟩
    obtain ⟨edge, _, hedge⟩ := hedges position target ht
    obtain ⟨hwrites, hreads⟩ := EdgeEffect.ofEdge_cases hedge s
    refine ⟨position, target, edge, ⟨block, hblock, ht, hedge⟩, ?_⟩
    rwa [hwrites, hreads, not_or]
  · rintro ⟨position, target, edge, ⟨block', hblock', ht, hedge⟩, hs⟩
    cases hblock.symm.trans hblock'
    obtain ⟨hwrites, hreads⟩ := EdgeEffect.ofEdge_cases hedge s
    refine ⟨position, target, ht, ?_⟩
    rwa [hwrites, hreads, not_or] at hs

/-- **The sweeps leave a solution of the flow equations.** -/
theorem ofFunc_solves (hd : g.Describes f) (h : ofFunc f g copies layout options = .ok l)
    (hsize : l.liveIn.size = g.size) : Solves f copies layout l.LiveIn := by
  have hflows := ofFunc_flows hd h
  intro b s
  cases hblock : f.block? b with
  | none =>
    -- there is no such block, so nothing is live in it and nothing is asked for
    refine iff_of_false ?_ ?_
    · rintro ⟨set, hset, _⟩
      have hlt := Table.lt_of_get? hset
      rw [hsize, hd.size_eq] at hlt
      exact absurd hblock (by simp [Func.block?, hlt])
    · rintro ⟨_, ⟨block, hblock', _⟩, _⟩
      cases hblock.symm.trans hblock'
  | some block =>
    obtain ⟨effect, heffect, hlive⟩ := hflows.liveIn_iff hblock
    rw [hlive, Needed, hd.id_eq hblock, edges_iff hd h hblock]
    constructor
    · exact fun hs => ⟨effect, ⟨block, hblock, heffect⟩, hs⟩
    · rintro ⟨effect', ⟨block', hblock', heffect'⟩, hs⟩
      cases hblock.symm.trans hblock'
      cases heffect.symm.trans heffect'
      exact hs

/-- **They leave the least one.** -/
theorem liveIn_of_closed (hd : g.Describes f) (h : ofFunc f g copies layout options = .ok l)
    (hP : ∀ b s, Asks f copies layout P b s → P b s) (hs : l.LiveIn b s) : P b s := by
  refine liveIn_induction hd h ?_ hs
  intro b block effect s hblock heffect hneeds
  rw [edges_iff hd h hblock] at hneeds
  exact hP b s ⟨effect, ⟨block, hblock, heffect⟩, hneeds⟩

/-- **Liveness is the least solution of the flow equations**, and so a slot is live at the start of a
block if and only if a path leads from there to where the slot is read, and nothing writes it on the
way.  Every function with a graph has a liveness, whatever its layout and the copies on its edges. -/
theorem liveIn_iff_path (hg : FlowGraph.ofFunc f = .ok g) (e : EdgeCopies) (layout : Layout)
    (options : Options) :
    ∃ copies l, e.onSlots g layout = .ok copies ∧ ofFunc f g copies layout options = .ok l ∧
      IsLeast {P | Solves f copies layout P} l.LiveIn ∧
      ∀ b s, l.LiveIn b s ↔
        ∃ c, ReflTransGen (Passes f copies layout s) b c ∧ Wants f copies layout s c := by
  have hd := FlowGraph.ofFunc_describes hg
  obtain ⟨copies, hcopies⟩ := e.exists_onSlots g layout
  obtain ⟨l, hl, hrange⟩ := exists_ofFunc hd hcopies options
  have hsolves := ofFunc_solves hd hl hrange.liveIn.size
  refine ⟨copies, l, hcopies, hl, ⟨hsolves, fun P hP b s => ?_⟩, fun b s => ⟨?_, hsolves.of_onPath⟩⟩
  · exact liveIn_of_closed hd hl fun b s => (hP b s).2
  · exact liveIn_of_closed hd hl fun b s => (onPath_solves b s).2

/-- A loop that adds up, and a block that control never gets to, with an edge into the loop. -/
def sums : Func where
  name := "sums"
  params := [⟨0⟩]
  valueCount := 3
  blocks := [
    { id := ⟨0⟩, instrs := [], terminator := .br ⟨1⟩ },
    { id := ⟨1⟩
      instrs := [.phi ⟨1⟩ [⟨⟨0⟩, .const (.int 0)⟩, ⟨⟨2⟩, .value ⟨2⟩⟩]]
      terminator := .condBr (.value ⟨1⟩) ⟨2⟩ ⟨3⟩ },
    { id := ⟨2⟩
      instrs := [.binary ⟨2⟩ .add (.value ⟨1⟩) (.value ⟨0⟩)]
      terminator := .br ⟨1⟩ },
    { id := ⟨3⟩, instrs := [], terminator := .ret (some (.value ⟨1⟩)) },
    { id := ⟨4⟩, instrs := [], terminator := .br ⟨1⟩ }]

/-- From the last block a path leads to the addition, and the φ has nothing to say on its edge.  On
the way from the entry the φ writes first. -/
theorem sums_liveIn : ∃ g e copies l, FlowGraph.ofFunc sums = .ok g ∧
    EdgeCopies.ofFunc sums g = .ok e ∧ e.onSlots g (.onePerValue sums) = .ok copies ∧
    ofFunc sums g copies (.onePerValue sums) {} = .ok l ∧
    l.LiveIn ⟨4⟩ ⟨0⟩ ∧ OnPath sums copies (.onePerValue sums) ⟨4⟩ ⟨0⟩ ∧
    ¬ l.LiveIn ⟨0⟩ ⟨1⟩ ∧ ¬ OnPath sums copies (.onePerValue sums) ⟨0⟩ ⟨1⟩ := by
  have hrun : ((FlowGraph.ofFunc sums).bind fun g => (EdgeCopies.ofFunc sums g).bind fun e =>
      (((e.onSlots g (.onePerValue sums)).bind fun copies =>
        (ofFunc sums g copies (.onePerValue sums) {}).map fun l =>
          (l.isLiveIn ⟨4⟩ ⟨0⟩, l.isLiveIn ⟨0⟩ ⟨1⟩) : Checked _) : Attempt _)) =
      .ok (.ok true, .ok false) := by decide +kernel
  cases hg : FlowGraph.ofFunc sums with
  | error stop => rw [hg] at hrun; cases hrun
  | ok g =>
    cases he : EdgeCopies.ofFunc sums g with
    | error stop => rw [hg] at hrun; simp only [Except.bind, he] at hrun; cases hrun
    | ok e =>
      obtain ⟨copies, l, hcopies, hl, _, hiff⟩ := liveIn_iff_path hg e (.onePerValue sums) {}
      rw [hg] at hrun
      simp only [Except.bind, he, hcopies, hl] at hrun
      obtain ⟨hlive, hdead⟩ := Prod.mk.inj (Except.ok.inj hrun)
      have hlive := (isLiveIn_eq_ok hlive).2 rfl
      have hdead := (isLiveIn_eq_ok hdead).not.2 (by decide)
      exact ⟨g, e, copies, l, rfl, he, hcopies, hl, hlive, (hiff _ _).1 hlive, hdead,
        (hiff _ _).not.1 hdead⟩

end FlowTree.Liveness
