import StockFeed.CodeLayout

/-!
# icode_to_fcode ends, and what it makes

A traversal of `convert_code_r` either lays out all blocks it reaches or marks
one branch which had no mark before, so that `icode_to_fcode` starts over
finitely often.  The array it ends with is filled from its start, is accepted
by `bpf_validate`, and ends every packet as the graph does, in at most as many
turns as it has instructions.
-/

namespace StockFeed
namespace Bpf

/-! ## Graphs with other offsets -/

/-- `g'` is `g` with other offsets and other marks on its branches. -/
structure Shape (g g' : Graph) : Prop where
  stmts : ∀ p, (g' p).stmts = (g p).stmts
  code : ∀ p, (g' p).code = (g p).code
  k : ∀ p, (g' p).k = (g p).k
  jt : ∀ p, (g' p).jt = (g p).jt
  jf : ∀ p, (g' p).jf = (g p).jf

/-- `g'` is `g` with other offsets. -/
structure Relabel (g g' : Graph) : Prop extends Shape g g' where
  longjt : ∀ p, (g' p).longjt = (g p).longjt
  longjf : ∀ p, (g' p).longjf = (g p).longjf

theorem Shape.refl (g : Graph) : Shape g g :=
  ⟨fun _ => rfl, fun _ => rfl, fun _ => rfl, fun _ => rfl, fun _ => rfl⟩

theorem Shape.trans
    {g g' g'' : Graph} (hfirst : Shape g g') (hsecond : Shape g' g'') :
    Shape g g'' :=
  ⟨fun p => (hsecond.stmts p).trans (hfirst.stmts p),
    fun p => (hsecond.code p).trans (hfirst.code p),
    fun p => (hsecond.k p).trans (hfirst.k p),
    fun p => (hsecond.jt p).trans (hfirst.jt p),
    fun p => (hsecond.jf p).trans (hfirst.jf p)⟩

theorem Relabel.refl (g : Graph) : Relabel g g :=
  ⟨Shape.refl g, fun _ => rfl, fun _ => rfl⟩

section Shape

variable {g g' : Graph}

theorem Shape.edge_iff (hshape : Shape g g') (p q : ℕ) :
    Edge g' p q ↔ Edge g p q := by
  rw [Edge, Edge, hshape.jt, hshape.jf]

theorem Shape.graphStep_eq (hshape : Shape g g') (input : Input) (here : Position) :
    graphStep g' input here = graphStep g input here := by
  unfold graphStep
  cases here.block with
  | none => rfl
  | some p =>
      simp only [Block.run, hshape.stmts, hshape.code, hshape.k, hshape.jt,
        hshape.jf]

theorem Shape.graphSteps_eq (hshape : Shape g g') (input : Input) (n : ℕ)
    (here : Position) :
    graphSteps g' input n here = graphSteps g input n here := by
  induction n generalizing here with
  | zero => rfl
  | succ n ih =>
      rw [graphSteps, graphSteps, hshape.graphStep_eq]
      exact congrArg _ (funext ih)

theorem Shape.flowGraph
    (hshape : Shape g g') {S : Set ℕ} {rank : ℕ → ℕ} (hflow : FlowGraph g S rank) :
    FlowGraph g' S rank := by
  refine ⟨?_, ?_⟩
  · intro p hp op src hcode
    rw [hshape.code] at hcode
    rw [hshape.jt, hshape.jf]
    exact hflow.jump p hp op src hcode
  · intro p hp value hcode
    rw [hshape.code] at hcode
    rw [hshape.jt, hshape.jf]
    exact hflow.ret p hp value hcode

theorem Relabel.size_eq (hrelabel : Relabel g g') (p : ℕ) :
    (g' p).size = (g p).size := by
  rw [Block.size, Block.size, hrelabel.stmts, hrelabel.longjt, hrelabel.longjf]

theorem Relabel.place
    {l : Layout} (hrelabel : Relabel g l.graph) (p : ℕ) :
    Relabel g (l.place p) := by
  have hsame : ∀ {α : Type} (field : Block → α),
      (∀ b offset, field { b with offset := offset } = field b) → ∀ q,
        field (l.place p q) = field (l.graph q) := by
    intro α field hfield q
    by_cases hq : q = p
    · subst hq
      rw [Layout.place_self, hfield]
    · rw [Layout.place_of_ne l hq]
  exact ⟨⟨fun q => (hsame Block.stmts (fun _ _ => rfl) q).trans (hrelabel.stmts q),
      fun q => (hsame Block.code (fun _ _ => rfl) q).trans (hrelabel.code q),
      fun q => (hsame Block.k (fun _ _ => rfl) q).trans (hrelabel.k q),
      fun q => (hsame Block.jt (fun _ _ => rfl) q).trans (hrelabel.jt q),
      fun q => (hsame Block.jf (fun _ _ => rfl) q).trans (hrelabel.jf q)⟩,
    fun q => (hsame Block.longjt (fun _ _ => rfl) q).trans (hrelabel.longjt q),
    fun q => (hsame Block.longjf (fun _ _ => rfl) q).trans (hrelabel.longjf q)⟩

end Shape

/-! ## One block -/

/-- A branch of block `p` is marked which was not: `g'` differs from `g` in
this mark and in offsets. -/
structure Raised (g g' : Graph) (p : ℕ) : Prop where
  shape : Shape g g'
  jump : ∃ t, (g p).jt = some t
  other : ∀ q, q ≠ p →
    (g' q).longjt = (g q).longjt ∧ (g' q).longjf = (g q).longjf
  mark : ((g p).longjt = 0 ∧ (g' p).longjt = 1 ∧
      (g' p).longjf = (g p).longjf) ∨
    ((g p).longjf = 0 ∧ (g' p).longjf = 1 ∧ (g' p).longjt = (g p).longjt)

/-- A traversal in which the blocks `done` are laid out and those of `gray`
have been entered. -/
structure Partial (g : Graph) (n : ℕ) (done gray : List ℕ) (l : Layout) :
    Prop where
  relabel : Relabel g l.graph
  length : l.n = n
  marks : Marks g l.marked done gray
  laid : Laid l.graph n done
  code : l.code = done.flatMap (blockCode l.graph)

/-- The first edge of a jump which is too long and not marked gets its mark. -/
theorem Relabel.raised
    {g g' : Graph} (hrelabel : Relabel g g') {p t : ℕ}
    (hjt : (g p).jt = some t) {b : Block}
    (hb : b = { g' p with longjt := (g' p).longjt + 1 } ∧ (g' p).longjt = 0 ∨
      b = { g' p with longjf := (g' p).longjf + 1 } ∧ (g' p).longjf = 0) :
    Raised g (Function.update g' p b) p := by
  have hself : Function.update g' p b p = b := Function.update_self ..
  have hother : ∀ q, q ≠ p → Function.update g' p b q = g' q := fun q hq =>
    Function.update_of_ne hq ..
  have hfield : ∀ {α : Type} (field : Block → α), field b = field (g' p) →
      ∀ q, field (Function.update g' p b q) = field (g' q) := by
    intro α field heq q
    by_cases hq : q = p
    · rw [hq, hself, heq]
    · rw [hother q hq]
  refine ⟨⟨?_, ?_, ?_, ?_, ?_⟩, ⟨t, hjt⟩, ?_, ?_⟩
  · intro q
    rw [← hrelabel.stmts]
    exact hfield Block.stmts (by rcases hb with ⟨rfl, _⟩ | ⟨rfl, _⟩ <;> rfl) q
  · intro q
    rw [← hrelabel.code]
    exact hfield Block.code (by rcases hb with ⟨rfl, _⟩ | ⟨rfl, _⟩ <;> rfl) q
  · intro q
    rw [← hrelabel.k]
    exact hfield Block.k (by rcases hb with ⟨rfl, _⟩ | ⟨rfl, _⟩ <;> rfl) q
  · intro q
    rw [← hrelabel.jt]
    exact hfield Block.jt (by rcases hb with ⟨rfl, _⟩ | ⟨rfl, _⟩ <;> rfl) q
  · intro q
    rw [← hrelabel.jf]
    exact hfield Block.jf (by rcases hb with ⟨rfl, _⟩ | ⟨rfl, _⟩ <;> rfl) q
  · intro q hq
    rw [hother q hq]
    exact ⟨hrelabel.longjt q, hrelabel.longjf q⟩
  · rw [hself, ← hrelabel.longjt, ← hrelabel.longjf]
    rcases hb with ⟨rfl, hzero⟩ | ⟨rfl, hzero⟩
    · exact Or.inl ⟨hzero, by simp [hzero], rfl⟩
    · exact Or.inr ⟨hzero, by simp [hzero], rfl⟩

section Traversal

variable {g : Graph} {S : Set ℕ} {rank : ℕ → ℕ} {n : ℕ} {done gray : List ℕ}
  {p : ℕ} {l : Layout}

/-- The successors are laid out, so block `p` gets its place before them; it
remains to show that its code has the room it needs. -/
theorem Partial.add
    (hpart : Partial g n done (p :: gray) l) (hfresh : p ∉ gray)
    (hedges : ∀ q, Edge g p q → q ∈ done)
    (hsize : (blockCode (l.place p) p).length = (l.place p p).size)
    (hroom : ∀ t f, (l.place p p).jt = some t → (l.place p p).jf = some f →
      Room (l.place p p) (edgeOffset (l.place p) p t)
        (edgeOffset (l.place p) p f)) :
    Partial g n (p :: done) gray
      { l with graph := l.place p, code := blockCode (l.place p) p ++ l.code } := by
  have hnew : p ∉ done := fun hmem =>
    hpart.marks.disjoint p hmem List.mem_cons_self
  have hrelabel := hpart.relabel.place p
  have hsame : ∀ q ∈ done, l.place p q = l.graph q := by
    intro q hq
    refine Layout.place_of_ne l ?_
    rintro rfl
    exact hnew hq
  obtain ⟨hlaid, hcode⟩ := hpart.laid.congr hsame
  have hoffset : (l.place p p).offset =
      l.n - (l.code.length + (l.graph p).size) := by
    rw [Layout.place_self]
  refine ⟨hrelabel, hpart.length, hpart.marks.finish hfresh hedges, ?_, ?_⟩
  · refine ⟨?_, hsize, ?_, hroom, hlaid⟩
    · change (l.place p p).offset = _
      rw [List.flatMap_cons, List.length_append, hcode, ← hpart.code, hsize,
        hrelabel.size_eq, ← hpart.relabel.size_eq, hoffset, ← hpart.length]
      push_cast
      ring
    · intro q hq
      exact hedges q ((hrelabel.edge_iff p q).mp hq)
  · change blockCode (l.place p) p ++ l.code = _
    rw [List.flatMap_cons, hcode, hpart.code]

theorem emitBlock_spec
    (hflow : FlowGraph g S rank) (hp : p ∈ S)
    (hpart : Partial g n done (p :: gray) l) (hfresh : p ∉ gray)
    (hedges : ∀ q, Edge g p q → q ∈ done) :
    (∃ l', emitBlock p l = some (true, l') ∧ Partial g n (p :: done) gray l') ∨
      ∃ l', emitBlock p l = some (false, l') ∧ Raised g l'.graph p := by
  have hrelabel := hpart.relabel.place p
  have hadd := hpart.add hfresh hedges
  cases hcode : (g p).code with
  | ret value =>
      obtain ⟨hjt, _⟩ := hflow.ret p hp value hcode
      have hjt' : (l.place p p).jt = none := by rw [hrelabel.jt, hjt]
      left
      refine ⟨_, ?_, hadd ?_ ?_⟩
      · simp only [emitBlock, hjt', blockCode]
      · simp only [blockCode, hjt', List.length_append, length_stmtInsns,
          List.length_cons, List.length_replicate, Block.size]
        omega
      · intro t f ht
        rw [hjt'] at ht
        exact absurd ht (by simp)
  | jump op src =>
      obtain ⟨t, _, f, _, hjt, hjf, _, _⟩ := hflow.jump p hp op src hcode
      have hjt' : (l.place p p).jt = some t := by rw [hrelabel.jt, hjt]
      have hjf' : (l.place p p).jf = some f := by rw [hrelabel.jf, hjf]
      simp only [emitBlock, hjt', hjf']
      split_ifs with hlongt hlongf
      · exact Or.inr ⟨_, rfl, hrelabel.raised hjt
          (Or.inl ⟨by simp only [hjt', hjf'], hlongt.2⟩)⟩
      · exact Or.inr ⟨_, rfl, hrelabel.raised hjt
          (Or.inr ⟨by simp only [hjt', hjf'], hlongf.2⟩)⟩
      · have hroom : Room (l.place p p) (edgeOffset (l.place p) p t)
            (edgeOffset (l.place p) p f) :=
          ⟨fun hge hzero => hlongt ⟨hge, hzero⟩,
            fun hge hzero => hlongf ⟨hge, hzero⟩⟩
        left
        refine ⟨_, ?_, hadd ?_ ?_⟩
        · simp only [blockCode, hjt', hjf']
        · simp only [blockCode, hjt', hjf', List.length_append, length_stmtInsns,
            length_branchInsns hroom, Block.size]
          omega
        · intro t' f' ht' hf'
          rw [hjt', Option.some.injEq] at ht'
          rw [hjf', Option.some.injEq] at hf'
          exact ht' ▸ hf' ▸ hroom

/-- A call lays out what can be reached, or marks a branch. -/
theorem convertCodeR_spec
    (hflow : FlowGraph g S rank) {fuel : ℕ} (hp : p ∈ S) (hfuel : rank p < fuel)
    (hgray : ∀ q ∈ gray, rank p < rank q) (hpart : Partial g n done gray l) :
    (∃ l' done', convertCodeR fuel (some p) l = some (true, l') ∧
        Partial g n done' gray l' ∧ Extends g p done done') ∨
      ∃ l', convertCodeR fuel (some p) l = some (false, l') ∧
        ∃ q ∈ S, Raised g l'.graph q := by
  induction fuel generalizing p done gray l with
  | zero => omega
  | succ fuel ih =>
      by_cases hmem : p ∈ l.marked
      · left
        refine ⟨l, done, by rw [convertCodeR, if_pos hmem], hpart,
          .rfl_of_mem (hpart.marks.mem_done hgray hmem)⟩
      · have hstart : Partial g n done (p :: gray)
            { l with marked := p :: l.marked } :=
          { hpart with marks := hpart.marks.start hmem }
        have hfresh : p ∉ gray := fun hpg => absurd (hgray p hpg) (lt_irrefl _)
        rw [convertCodeR, if_neg hmem]
        cases hcode : (g p).code with
        | ret value =>
            obtain ⟨hjt, hjf⟩ := hflow.ret p hp value hcode
            have hnone : ∀ l' : Layout, convertCodeR fuel none l' = some (true, l') := by
              intro l'
              cases fuel <;> rfl
            have hjt' : (l.graph p).jt = none := by rw [hpart.relabel.jt, hjt]
            have hjf' : (l.graph p).jf = none := by rw [hpart.relabel.jf, hjf]
            have hedges : ∀ q, Edge g p q → q ∈ done := by
              rintro q (hq | hq)
              · simp [hjt] at hq
              · simp [hjf] at hq
            simp only [hjf', hnone, Option.bind_eq_bind, Option.bind_some, if_true,
              hjt']
            rcases emitBlock_spec hflow hp hstart hfresh hedges with
              ⟨l', hemit, hpart'⟩ | ⟨l', hemit, hraised⟩
            · exact Or.inl ⟨l', p :: done, hemit, hpart', .of_ret done⟩
            · exact Or.inr ⟨l', hemit, p, hp, hraised⟩
        | jump op src =>
            obtain ⟨t, ht, f, hf, hjt, hjf, hrt, hrf⟩ :=
              hflow.jump p hp op src hcode
            have hgray' : ∀ r, rank r < rank p →
                ∀ q ∈ p :: gray, rank r < rank q := by
              intro r hr q hq
              rcases List.mem_cons.mp hq with rfl | hqg
              · exact hr
              · exact hr.trans (hgray q hqg)
            have hjf' : (l.graph p).jf = some f := by rw [hpart.relabel.jf, hjf]
            simp only [hjf']
            rcases ih hf (by omega) (hgray' f hrf) hstart with
              ⟨l₁, done₁, hcall₁, hpart₁, hext₁⟩ | ⟨l₁, hcall₁, hraised⟩
            · have hjt' : (l₁.graph p).jt = some t := by
                rw [hpart₁.relabel.jt, hjt]
              simp only [hcall₁, Option.bind_eq_bind, Option.bind_some, if_true,
                hjt']
              rcases ih ht (by omega) (hgray' t hrt) hpart₁ with
                ⟨l₂, done₂, hcall₂, hpart₂, hext₂⟩ | ⟨l₂, hcall₂, hraised⟩
              · have hedges : ∀ q, Edge g p q → q ∈ done₂ := by
                  rintro q (hq | hq)
                  · rw [hjt, Option.some.injEq] at hq
                    exact hq ▸ hext₂.mem
                  · rw [hjf, Option.some.injEq] at hq
                    exact hext₂.subset q (hq ▸ hext₁.mem)
                simp only [hcall₂, Option.bind_some, if_true]
                rcases emitBlock_spec hflow hp hpart₂ hfresh hedges with
                  ⟨l', hemit, hpart'⟩ | ⟨l', hemit, hraised⟩
                · exact Or.inl ⟨l', p :: done₂, hemit, hpart',
                    .of_successors (Or.inr hjf) (Or.inl hjt) hext₁ hext₂⟩
                · exact Or.inr ⟨l', hemit, p, hp, hraised⟩
              · right
                refine ⟨l₂, ?_, hraised⟩
                simp only [hcall₂, Option.bind_some]
                rfl
            · right
              refine ⟨l₁, ?_, hraised⟩
              simp only [hcall₁, Option.bind_eq_bind, Option.bind_some]
              rfl

end Traversal

/-! ## The loop -/

/-- How many branches of the blocks are not marked. -/
def unmarked (blocks : Finset ℕ) (g : Graph) : ℕ :=
  ∑ p ∈ blocks, ((if (g p).longjt = 0 then 1 else 0) +
    if (g p).longjf = 0 then 1 else 0)

theorem unmarked_le (blocks : Finset ℕ) (g : Graph) :
    unmarked blocks g ≤ 2 * blocks.card := by
  rw [Nat.mul_comm]
  refine Finset.sum_le_card_nsmul blocks _ 2 ?_
  intro p _
  split_ifs <;> omega

/-- A branch is marked once at most, and a return has none. -/
structure BranchMarks (g : Graph) (S : Set ℕ) : Prop where
  once : ∀ p ∈ S, (g p).longjt ≤ 1 ∧ (g p).longjf ≤ 1
  ret : ∀ p ∈ S, ∀ value, (g p).code = .ret value →
    (g p).longjt = 0 ∧ (g p).longjf = 0

section Marked

variable {g g' : Graph} {S : Set ℕ} {rank : ℕ → ℕ} {p : ℕ}

theorem Raised.unmarked_lt
    (hraised : Raised g g' p) {blocks : Finset ℕ} (hp : p ∈ blocks) :
    unmarked blocks g' < unmarked blocks g := by
  refine Finset.sum_lt_sum ?_ ⟨p, hp, ?_⟩
  · intro q _
    by_cases hq : q = p
    · subst hq
      rcases hraised.mark with ⟨hzero, hone, hsame⟩ | ⟨hzero, hone, hsame⟩ <;>
        simp [hzero, hone, hsame]
    · obtain ⟨hjt, hjf⟩ := hraised.other q hq
      rw [hjt, hjf]
  · rcases hraised.mark with ⟨hzero, hone, hsame⟩ | ⟨hzero, hone, hsame⟩ <;>
      simp [hzero, hone, hsame]

theorem Raised.branchMarks
    (hraised : Raised g g' p) (hflow : FlowGraph g S rank)
    (hmarks : BranchMarks g S) : BranchMarks g' S := by
  refine ⟨?_, ?_⟩
  · intro q hq
    have hold := hmarks.once q hq
    by_cases hqp : q = p
    · subst hqp
      rcases hraised.mark with ⟨_, hone, hsame⟩ | ⟨_, hone, hsame⟩ <;>
        omega
    · rw [(hraised.other q hqp).1, (hraised.other q hqp).2]
      exact hold
  · intro q hq value hcode
    rw [hraised.shape.code] at hcode
    have hne : q ≠ p := by
      rintro rfl
      obtain ⟨t, hjt⟩ := hraised.jump
      rw [(hflow.ret q hq value hcode).1] at hjt
      exact absurd hjt (by simp)
    rw [(hraised.other q hne).1, (hraised.other q hne).2]
    exact hmarks.ret q hq value hcode

theorem Relabel.branchMarks
    (hrelabel : Relabel g g') (hmarks : BranchMarks g S) : BranchMarks g' S := by
  refine ⟨?_, ?_⟩
  · intro q hq
    rw [hrelabel.longjt, hrelabel.longjf]
    exact hmarks.once q hq
  · intro q hq value hcode
    rw [hrelabel.code] at hcode
    rw [hrelabel.longjt, hrelabel.longjf]
    exact hmarks.ret q hq value hcode

end Marked

/-- The array is the code of the blocks which can be reached from `root`, one
block behind the other. -/
structure Converted (g : Graph) (root : ℕ) (done : List ℕ) (prog : List Insn) :
    Prop where
  code : prog = done.flatMap (blockCode g)
  laid : Laid g prog.length done
  nodup : done.Nodup
  mem : root ∈ done
  reach : ∀ q ∈ done, Reach g root q

/-- A call from the root which does not give up fills the array to its start:
`count_stmts` has visited the same blocks. -/
theorem converted_of_partial
    {g : Graph} {S : Set ℕ} {rank : ℕ → ℕ} (hflow : FlowGraph g S rank)
    {depth root n : ℕ} (hroot : root ∈ S) (hdepth : rank root < depth)
    {marked : List ℕ} (hcount : countStmts g depth (some root) [] = some (n, marked))
    {l : Layout} {done : List ℕ} (hpart : Partial g n done [] l)
    (hext : Extends g root [] done) :
    n = l.code.length ∧ Converted l.graph root done l.code := by
  obtain ⟨n', marked', done', hcount', hmarks', hext', hsum⟩ :=
    countStmts_spec hflow hroot hdepth
      (fun q hq => absurd hq List.not_mem_nil)
      (⟨fun p => by simp, List.nodup_nil, fun p hp => absurd hp List.not_mem_nil,
        fun p hp => absurd hp List.not_mem_nil⟩ : Marks g [] [] [])
  rw [hcount, Option.some.injEq, Prod.mk.injEq] at hcount'
  obtain ⟨rfl, rfl⟩ := hcount'
  have hperm := perm_of_complete hpart.marks hmarks' hext hext'
  have hlength : n = l.code.length := by
    rw [hpart.code, hpart.laid.length_flatMap]
    calc
      n = (done'.map fun q => (g q).size).sum := by rw [hsum]; simp
      _ = (done.map fun q => (g q).size).sum := (hperm.map _).sum_eq.symm
      _ = (done.map fun q => (l.graph q).size).sum := by
          simp only [hpart.relabel.size_eq]
  refine ⟨hlength, hpart.code, hlength ▸ hpart.laid, hpart.marks.nodup, hext.mem, ?_⟩
  intro q hq
  exact Relation.ReflTransGen.mono
    (fun a b hab => (hpart.relabel.edge_iff a b).mpr hab) _ _
    ((hext.reach q hq).resolve_left List.not_mem_nil)

theorem icodeToFcode_spec
    {blocks : Finset ℕ} {rank : ℕ → ℕ} {depth root : ℕ} (hroot : root ∈ blocks)
    (hdepth : rank root < depth) {tries : ℕ} {g : Graph}
    (hflow : FlowGraph g blocks rank) (hmarks : BranchMarks g blocks)
    (htries : unmarked blocks g < tries) :
    ∃ prog g' done, icodeToFcode depth tries g root = some prog ∧ Shape g g' ∧
      BranchMarks g' blocks ∧ Converted g' root done prog := by
  induction tries generalizing g with
  | zero => omega
  | succ tries ih =>
      have hempty : Marks g [] [] [] :=
        ⟨fun p => by simp, List.nodup_nil, fun p hp => absurd hp List.not_mem_nil,
          fun p hp => absurd hp List.not_mem_nil⟩
      obtain ⟨n, marked, _, hcount, _⟩ := countStmts_spec hflow hroot hdepth
        (fun q hq => absurd hq List.not_mem_nil) hempty
      have hstart : Partial g n [] [] ⟨g, [], n, []⟩ :=
        ⟨Relabel.refl g, rfl, hempty, trivial, rfl⟩
      rw [icodeToFcode, hcount]
      simp only [Option.bind_eq_bind, Option.bind_some]
      rcases convertCodeR_spec hflow hroot hdepth
          (fun q hq => absurd hq List.not_mem_nil) hstart with
        ⟨l, done, hcall, hpart, hext⟩ | ⟨l, hcall, q, hq, hraised⟩
      · obtain ⟨hlength, hconverted⟩ :=
          converted_of_partial hflow hroot hdepth hcount hpart hext
        refine ⟨l.code, l.graph, done, ?_, hpart.relabel.toShape,
          hpart.relabel.branchMarks hmarks, hconverted⟩
        simp only [hcall, Option.bind_some, if_true]
        rw [hlength, Nat.sub_self]
        rfl
      · have hless := hraised.unmarked_lt hq
        obtain ⟨prog, g', done, hrest, hshape, hmarks', hconverted⟩ :=
          ih (hraised.shape.flowGraph hflow) (hraised.branchMarks hflow hmarks)
            (by omega)
        refine ⟨prog, g', done, ?_, hraised.shape.trans hshape, hmarks',
          hconverted⟩
        simp only [hcall, Option.bind_some]
        exact hrest

/-! ## The array is accepted -/

/-- What `bpf_validate` asks of a statement. -/
def Stmt.valid (stmt : Stmt) : Bool :=
  match stmt.code with
  | some op => (Op.plain op).valid 0 0 ⟨op.code, 0, 0, stmt.k⟩
  | none => true

/-- Instruction `i` of `n` is accepted, and does not jump backwards. -/
def Fine (n i : ℕ) (insn : Insn) : Prop :=
  validInsn n i insn = true ∧
    (Op.ofCode insn.code = some .ja → insn.k.toNat < 2 ^ 31)

/-- A piece of code from instruction `i` on is fine. -/
def FineCode (n : ℕ) : ℕ → List Insn → Prop
  | _, [] => True
  | i, insn :: rest => Fine n i insn ∧ FineCode n (i + 1) rest

section Fine

variable {n i : ℕ}

theorem fineCode_append (code rest : List Insn) :
    FineCode n i (code ++ rest) ↔
      FineCode n i code ∧ FineCode n (i + code.length) rest := by
  induction code generalizing i with
  | nil => simp [FineCode]
  | cons insn code ih =>
      rw [List.cons_append, FineCode, FineCode, ih, List.length_cons, and_assoc,
        Nat.add_assoc, Nat.add_comm 1]

theorem FineCode.getElem
    {code : List Insn} (hfine : FineCode n i code) {j : ℕ} {insn : Insn}
    (hinsn : code[j]? = some insn) : Fine n (i + j) insn := by
  induction code generalizing i j with
  | nil => simp at hinsn
  | cons first code ih =>
      obtain ⟨hfirst, hrest⟩ := hfine
      cases j with
      | zero =>
          rw [List.getElem?_cons_zero, Option.some.injEq] at hinsn
          exact hinsn ▸ hfirst
      | succ j =>
          rw [List.getElem?_cons_succ] at hinsn
          have hmore := ih hrest hinsn
          rwa [Nat.add_assoc, Nat.add_comm 1] at hmore

theorem fine_zeroInsn : Fine n i zeroInsn :=
  ⟨rfl, fun hop => absurd hop (by decide)⟩

theorem fine_jaInsn {k : ℕ} (hn : n < 2 ^ 31) (hk : i + 1 + k < n) :
    Fine n i (jaInsn k) := by
  have hcode : Op.ofCode (jaInsn k).code = some .ja := Op.ofCode_code .ja
  have hnat : (jaInsn k).k.toNat = k :=
    UInt32.toNat_ofNat_of_lt' (by simp only [UInt32.size]; omega)
  refine ⟨?_, fun _ => by omega⟩
  rw [validInsn_eq hcode]
  simp only [Op.valid, hnat, decide_eq_true_eq]
  omega

theorem fineCode_replicate (m : ℕ) :
    FineCode n i (List.replicate m zeroInsn) := by
  induction m generalizing i with
  | zero => trivial
  | succ m ih => exact ⟨fine_zeroInsn, ih⟩

theorem fineCode_stmtInsns
    {stmts : List Stmt} (hvalid : ∀ stmt ∈ stmts, stmt.valid = true) :
    FineCode n i (stmtInsns stmts) := by
  induction stmts generalizing i with
  | nil => trivial
  | cons stmt rest ih =>
      have hstmt := hvalid stmt List.mem_cons_self
      have hrest := fun j => ih (i := j) fun s hs =>
        hvalid s (List.mem_cons_of_mem stmt hs)
      obtain ⟨code, k⟩ := stmt
      cases code with
      | none => simpa [stmtInsns] using hrest i
      | some op =>
          have hcode : Op.ofCode (⟨op.code, 0, 0, k⟩ : Insn).code =
              some (.plain op) := Op.ofCode_code (.plain op)
          have hfine : Fine n i ⟨op.code, 0, 0, k⟩ := by
            refine ⟨?_, fun hop => ?_⟩
            · rw [validInsn_eq hcode]
              change (Op.plain op).valid 0 0 ⟨op.code, 0, 0, k⟩ = true at hstmt
              rw [← hstmt]
              rcases op with _ | _ | _ | _ | _ | _ | _ | _ | _ | _ | _ | ⟨op, src⟩ |
                _ | _ | _
              case alu => cases op <;> cases src <;> rfl
              all_goals rfl
            · rw [hcode] at hop
              exact absurd hop (by simp)
          exact ⟨hfine, hrest (i + 1)⟩

theorem fineCode_branchInsns
    {b : Block} {op : JumpOp} {src : Source} (hcode : b.code = .jump op src)
    {offt offf : ℕ} (hn : n < 2 ^ 31) (hofft : i + 1 + offt < n)
    (hofff : i + 1 + offf < n) : FineCode n i (branchInsns b offt offf) := by
  -- the branch itself
  have hbranch : ∀ jt jf, jt ≤ offt → jf ≤ offf → jt < 256 → jf < 256 →
      Fine n i ⟨b.code.op.code, UInt8.ofNat jt, UInt8.ofNat jf, b.k⟩ := by
    intro jt jf hjt hjf hjt' hjf'
    have hop : Op.ofCode b.code.op.code = some (.jump op src) := by
      rw [hcode]
      exact Op.ofCode_code (.jump op src)
    refine ⟨?_, fun hja => ?_⟩
    · rw [validInsn_eq hop]
      simp only [Op.valid, decide_eq_true_eq,
        UInt8.toNat_ofNat_of_lt' (show jt < UInt8.size from hjt'),
        UInt8.toNat_ofNat_of_lt' (show jf < UInt8.size from hjf')]
      omega
    · rw [hop] at hja
      exact absurd hja (by simp)
  unfold branchInsns
  split_ifs with ht hf hf
  · exact ⟨hbranch _ _ (by omega) (by simp; omega) (by omega) (by simp),
      fine_jaInsn hn (by omega), fine_jaInsn hn (by simp; omega),
      fineCode_replicate _⟩
  · exact ⟨hbranch _ _ (by omega) le_rfl (by omega) (by omega),
      fine_jaInsn hn (by omega), fineCode_replicate _⟩
  · exact ⟨hbranch _ _ le_rfl (by simp) (by omega) (by simp),
      fine_jaInsn hn (by simp; omega), fineCode_replicate _⟩
  · exact ⟨hbranch _ _ le_rfl le_rfl (by omega) (by omega), fineCode_replicate _⟩

end Fine

section Accepted

variable {g : Graph} {S : Set ℕ} {rank : ℕ → ℕ} {n : ℕ} {done : List ℕ}

theorem Laid.fineCode
    (hlaid : Laid g n done) (hflow : FlowGraph g S rank)
    (hsub : ∀ p ∈ done, p ∈ S) (hn : n < 2 ^ 31)
    (hvalid : ∀ p ∈ S, ∀ stmt ∈ (g p).stmts, stmt.valid = true)
    (hfit : (done.flatMap (blockCode g)).length ≤ n) :
    FineCode n (n - (done.flatMap (blockCode g)).length)
      (done.flatMap (blockCode g)) := by
  induction done with
  | nil => trivial
  | cons p rest ih =>
      have hplaced := hlaid.placed List.mem_cons_self
      obtain ⟨hoffset, _, _, _, hrest⟩ := hlaid
      rw [List.flatMap_cons, List.length_append] at hfit hoffset ⊢
      have hmore := ih hrest (fun q hq => hsub q (List.mem_cons_of_mem p hq))
        (by omega)
      have hp := hsub p List.mem_cons_self
      have hstmts := hvalid p hp
      rw [fineCode_append]
      refine ⟨?_, ?_⟩
      · obtain ⟨i, hi⟩ : ∃ i, i = n - ((blockCode g p).length +
          (rest.flatMap (blockCode g)).length) := ⟨_, rfl⟩
        rw [← hi]
        cases hcode : (g p).code with
        | ret value =>
            obtain ⟨hjt, hjf⟩ := hflow.ret p hp value hcode
            have hop : Op.ofCode
                (⟨(Op.ret value).code, 0, 0, (g p).k⟩ : Insn).code =
                  some (.ret value) := Op.ofCode_code (.ret value)
            simp only [blockCode, hjt, hcode, Branch.op]
            rw [fineCode_append]
            refine ⟨fineCode_stmtInsns hstmts, ⟨?_, fun hja => ?_⟩,
              fineCode_replicate _⟩
            · exact (validInsn_eq hop _ _).trans rfl
            · rw [hop] at hja
              exact absurd hja (by simp)
        | jump op src =>
            obtain ⟨t, _, f, _, hjt, hjf, _, _⟩ := hflow.jump p hp op src hcode
            have htarget : ∀ q, Edge g p q →
                i + slength (g p).stmts + 1 + edgeOffset g p q < n := by
              intro q hq
              obtain ⟨heq, _⟩ := hplaced.edgeOffset_eq (by omega) hn hq
              have hlt := (hplaced.ahead q hq).2
              omega
            simp only [blockCode, hjt, hjf]
            rw [fineCode_append, length_stmtInsns]
            exact ⟨fineCode_stmtInsns hstmts, fineCode_branchInsns hcode hn
              (htarget t (Or.inl hjt)) (htarget f (Or.inr hjf))⟩
      · rw [show n - ((blockCode g p).length + (rest.flatMap (blockCode g)).length) +
          (blockCode g p).length = n - (rest.flatMap (blockCode g)).length by omega]
        exact hmore

/-- The block laid out first has no successors, so the code ends with a
return. -/
theorem Laid.last_ret
    (hlaid : Laid g n done) (hflow : FlowGraph g S rank)
    (hmarks : BranchMarks g S) (hsub : ∀ p ∈ done, p ∈ S) (hne : done ≠ []) :
    ∃ pre value k, done.flatMap (blockCode g) =
      pre ++ [⟨(Op.ret value).code, 0, 0, k⟩] := by
  induction done with
  | nil => exact absurd rfl hne
  | cons p rest ih =>
      obtain ⟨_, _, hedges, _, hrest⟩ := hlaid
      cases rest with
      | nil =>
          have hp := hsub p List.mem_cons_self
          cases hcode : (g p).code with
          | jump op src =>
              obtain ⟨t, _, _, _, hjt, _⟩ := hflow.jump p hp op src hcode
              exact absurd (hedges t (Or.inl hjt)) List.not_mem_nil
          | ret value =>
              obtain ⟨hjt, _⟩ := hflow.ret p hp value hcode
              obtain ⟨hlongjt, hlongjf⟩ := hmarks.ret p hp value hcode
              refine ⟨stmtInsns (g p).stmts, value, (g p).k, ?_⟩
              simp [blockCode, hjt, hcode, hlongjt, hlongjf, Branch.op]
      | cons q rest =>
          obtain ⟨pre, value, k, hcode⟩ := ih hrest
            (fun r hr => hsub r (List.mem_cons_of_mem p hr)) (by simp)
          exact ⟨blockCode g p ++ pre, value, k, by
            rw [List.flatMap_cons, hcode, List.append_assoc]⟩

theorem bpfValidate_of_fineCode
    {prog pre : List Insn} {value : ReturnValue} {k : UInt32}
    (hfine : FineCode prog.length 0 prog)
    (hlast : prog = pre ++ [⟨(Op.ret value).code, 0, 0, k⟩]) :
    bpfValidate prog = true := by
  rw [bpfValidate, Bool.and_eq_true, List.all_eq_true]
  refine ⟨?_, ?_⟩
  · rintro ⟨insn, i⟩ hmem
    have hinsn := (hfine.getElem (List.mem_zipIdx_iff_getElem?.mp hmem)).1
    rwa [Nat.zero_add] at hinsn
  · rw [hlast, List.getLast?_concat]
    exact decide_eq_true (fields_of_code (.ret value)).1

theorem FineCode.forwardJumps
    {prog : List Insn} (hfine : FineCode n 0 prog) : ForwardJumps prog := by
  intro insn hmem hop
  obtain ⟨j, hj⟩ := List.mem_iff_getElem?.mp hmem
  exact (hfine.getElem hj).2 hop

end Accepted

/-! ## The whole conversion -/

section Converted

variable {g : Graph} {blocks : Finset ℕ} {rank : ℕ → ℕ} {root : ℕ}
  {done : List ℕ} {prog : List Insn}

theorem FlowGraph.mem_of_reach
    {S : Set ℕ} (hflow : FlowGraph g S rank) {p q : ℕ} (hp : p ∈ S)
    (hreach : Reach g p q) : q ∈ S := by
  induction hreach with
  | refl => exact hp
  | @tail r q _ hedge ih =>
      cases hcode : (g r).code with
      | ret value =>
          obtain ⟨hjt, hjf⟩ := hflow.ret r ih value hcode
          rw [Edge, hjt, hjf] at hedge
          simp at hedge
      | jump op src =>
          obtain ⟨t, ht, f, hf, hjt, hjf, _⟩ := hflow.jump r ih op src hcode
          rw [Edge, hjt, hjf, Option.some.injEq, Option.some.injEq] at hedge
          rcases hedge with rfl | rfl
          · exact ht
          · exact hf

/-- The block laid out last is the root, so the code starts with it. -/
theorem Converted.offset_root
    (hconverted : Converted g root done prog) : (g root).offset = 0 := by
  obtain ⟨hcode, hlaid, hnodup, hmem, hreach⟩ := hconverted
  cases done with
  | nil => exact absurd hmem List.not_mem_nil
  | cons q rest =>
      obtain ⟨hoffset, _, _, _, hrest⟩ := hlaid
      have hq : root = q := by
        rcases List.mem_cons.mp hmem with rfl | hroot
        · rfl
        · -- all the root reaches is in the rest, but `q` is not
          have hback : ∀ r, Reach g root r → r ∈ rest := by
            intro r hr
            induction hr with
            | refl => exact hroot
            | tail _ hedge ih => exact hrest.closed ih _ hedge
          exact absurd (hback q (hreach q List.mem_cons_self))
            (List.nodup_cons.mp hnodup).1
      rw [hq, hoffset, ← hcode]
      omega

theorem Converted.length_le
    (hconverted : Converted g root done prog) (hmarks : BranchMarks g blocks)
    (hsub : ∀ p ∈ done, p ∈ blocks) :
    prog.length ≤ ∑ p ∈ blocks, ((g p).stmts.length + 3) := by
  have hsize : ∀ p ∈ blocks, (g p).size ≤ (g p).stmts.length + 3 := by
    intro p hp
    obtain ⟨hjt, hjf⟩ := hmarks.once p hp
    have hlength : slength (g p).stmts ≤ (g p).stmts.length :=
      List.countP_le_length
    rw [Block.size]
    omega
  calc
    prog.length = (done.flatMap (blockCode g)).length :=
      congrArg List.length hconverted.code
    _ = (done.map fun p => (g p).size).sum := hconverted.laid.length_flatMap
    _ = ∑ p ∈ done.toFinset, (g p).size :=
        (List.sum_toFinset _ hconverted.nodup).symm
    _ ≤ ∑ p ∈ blocks, (g p).size :=
        Finset.sum_le_sum_of_subset fun p hp => hsub p (List.mem_toFinset.mp hp)
    _ ≤ ∑ p ∈ blocks, ((g p).stmts.length + 3) := Finset.sum_le_sum hsize

theorem Converted.accepted
    (hconverted : Converted g root done prog) (hflow : FlowGraph g blocks rank)
    (hmarks : BranchMarks g blocks) (hsub : ∀ p ∈ done, p ∈ blocks)
    (hlen : prog.length < 2 ^ 31)
    (hvalid : ∀ p ∈ blocks, ∀ stmt ∈ (g p).stmts, stmt.valid = true) :
    bpfValidate prog = true ∧ ForwardJumps prog := by
  have hlength := congrArg List.length hconverted.code
  have hfine := hconverted.laid.fineCode hflow hsub hlen hvalid hlength.ge
  rw [← hlength, Nat.sub_self, ← hconverted.code] at hfine
  obtain ⟨pre, value, k, hlast⟩ := hconverted.laid.last_ret hflow hmarks hsub
    (List.ne_nil_of_mem hconverted.mem)
  rw [← hconverted.code] at hlast
  exact ⟨bpfValidate_of_fineCode hfine hlast, hfine.forwardJumps⟩

theorem Converted.filter_iff
    (hconverted : Converted g root done prog) (hflow : FlowGraph g blocks rank)
    (hsub : ∀ p ∈ done, p ∈ blocks) (hroot : root ∈ blocks)
    (hlen : prog.length < 2 ^ 31) (haccepted : bpfValidate prog = true)
    (hforward : ForwardJumps prog) (input : Input) (mem : Fin memWords → UInt32)
    (stop : Stop) :
    Ends g input ⟨some root, ⟨0, 0, mem⟩⟩ stop ↔
      bpfFilter (some prog) input mem prog.length = some stop := by
  have hforth : ∀ stop, Ends g input ⟨some root, ⟨0, 0, mem⟩⟩ stop →
      bpfFilter (some prog) input mem prog.length = some stop := by
    rintro stop ⟨n, hrun⟩
    have hplaced : ∀ q ∈ {q | q ∈ done}, Placed g prog.length prog q := by
      intro q hq
      have hq' := hconverted.laid.placed hq
      rwa [← hconverted.code] at hq'
    obtain ⟨m, hm⟩ := steps_of_graphSteps hflow hlen (D := {q | q ∈ done}) hsub
      hplaced (fun q hq => hconverted.laid.closed hq) hconverted.mem hrun
    rw [hconverted.offset_root] at hm
    obtain ⟨stop', hstop'⟩ :=
      steps_length_stop hlen haccepted hforward input mem
    have hboth := (steps_mono (Nat.le_add_right m prog.length) hm).symm.trans
      (steps_mono (Nat.le_add_left prog.length m) hstop')
    rw [Except.error.injEq] at hboth
    rw [bpfFilter, hstop', hboth]
  refine ⟨hforth stop, fun hfilter => ?_⟩
  obtain ⟨stop', hends⟩ := hflow.ends input hroot ⟨0, 0, mem⟩
  have hsame := (hforth stop' hends).symm.trans hfilter
  rw [Option.some.injEq] at hsame
  exact hsame ▸ hends

/-- The array is short, is accepted, and ends every packet as the graph it was
made from does. -/
theorem Converted.correct
    {g' : Graph} (hconverted : Converted g' root done prog) (hshape : Shape g g')
    (hmarks : BranchMarks g' blocks) (hflow : FlowGraph g blocks rank)
    (hroot : root ∈ blocks)
    (hvalid : ∀ p ∈ blocks, ∀ stmt ∈ (g p).stmts, stmt.valid = true)
    (hlen : ∑ p ∈ blocks, ((g p).stmts.length + 3) < 2 ^ 31) :
    installBpfProgram prog = some prog ∧
      ∀ input mem stop, Ends g input ⟨some root, ⟨0, 0, mem⟩⟩ stop ↔
        bpfFilter (some prog) input mem prog.length = some stop := by
  have hflow' := hshape.flowGraph hflow
  have hsub : ∀ p ∈ done, p ∈ blocks := fun p hp =>
    hflow'.mem_of_reach hroot (hconverted.reach p hp)
  have hlength : prog.length < 2 ^ 31 := by
    have hle := hconverted.length_le hmarks hsub
    simp only [hshape.stmts] at hle
    exact hle.trans_lt hlen
  obtain ⟨haccepted, hforward⟩ := hconverted.accepted hflow' hmarks hsub hlength
    fun p hp => by
      rw [hshape.stmts]
      exact hvalid p hp
  refine ⟨by rw [installBpfProgram, if_pos haccepted], ?_⟩
  intro input mem stop
  rw [← hconverted.filter_iff hflow' hsub hroot hlength haccepted hforward]
  simp only [Ends, hshape.graphSteps_eq]

/-- Blocks without marks are a start for `icode_to_fcode`. -/
theorem branchMarks_of_fresh
    (hfresh : ∀ p ∈ blocks, (g p).longjt = 0 ∧ (g p).longjf = 0) :
    BranchMarks g blocks := by
  refine ⟨fun p hp => ?_, fun p hp _ _ => hfresh p hp⟩
  rw [(hfresh p hp).1, (hfresh p hp).2]
  exact ⟨Nat.zero_le 1, Nat.zero_le 1⟩

end Converted

/-- For every flowgraph with fresh blocks, `icode_to_fcode` ends, and within
two turns for each block and one more; what it makes can be installed and ends
every packet as the graph does. -/
theorem icodeToFcode_correct
    (g : Graph) (blocks : Finset ℕ) (rank : ℕ → ℕ) (root : ℕ)
    (hroot : root ∈ blocks) (hflow : FlowGraph g blocks rank)
    (hfresh : ∀ p ∈ blocks, (g p).longjt = 0 ∧ (g p).longjf = 0)
    (hvalid : ∀ p ∈ blocks, ∀ stmt ∈ (g p).stmts, stmt.valid = true)
    (hlen : ∑ p ∈ blocks, ((g p).stmts.length + 3) < 2 ^ 31)
    {depth tries : ℕ} (hdepth : rank root < depth)
    (htries : 2 * blocks.card < tries) :
    ∃ prog, icodeToFcode depth tries g root = some prog ∧
      installBpfProgram prog = some prog ∧
      ∀ input mem stop, Ends g input ⟨some root, ⟨0, 0, mem⟩⟩ stop ↔
        bpfFilter (some prog) input mem prog.length = some stop := by
  obtain ⟨prog, g', done, hprog, hshape, hmarks, hconverted⟩ :=
    icodeToFcode_spec hroot hdepth hflow (branchMarks_of_fresh hfresh)
      ((unmarked_le blocks g).trans_lt htries)
  exact ⟨prog, hprog, hconverted.correct hshape hmarks hflow hroot hvalid hlen⟩

/-- The graph of `ip`. -/
def etherGraph : Graph
  | 0 => ⟨[], .ret .K, 0, 0, 0, 0, false, none, none, 0⟩
  | 1 => ⟨[], .ret .K, 65535, 0, 0, 0, false, none, none, 1⟩
  | _ => ⟨[⟨some (.ldAbs .H), 12⟩], .jump .jeq .K, 0x800, 0, 0, 0, false,
      some 1, some 0, 2⟩

theorem icodeToFcode_correct_ether :
    ∃ prog, icodeToFcode 3 7 etherGraph 2 = some prog ∧
      installBpfProgram prog = some prog ∧
      ∀ input mem stop, Ends etherGraph input ⟨some 2, ⟨0, 0, mem⟩⟩ stop ↔
        bpfFilter (some prog) input mem prog.length = some stop := by
  have hblocks : ∀ p ∈ ({0, 1, 2} : Finset ℕ), p = 0 ∨ p = 1 ∨ p = 2 := by
    simp
  have hflow : FlowGraph etherGraph ({0, 1, 2} : Finset ℕ) id := by
    refine ⟨?_, ?_⟩
    · intro p hp op src hcode
      rcases hblocks p hp with rfl | rfl | rfl
      · simp [etherGraph] at hcode
      · simp [etherGraph] at hcode
      · exact ⟨1, by simp, 0, by simp, rfl, rfl, by decide, by decide⟩
    · intro p hp value hcode
      rcases hblocks p hp with rfl | rfl | rfl
      · exact ⟨rfl, rfl⟩
      · exact ⟨rfl, rfl⟩
      · simp [etherGraph] at hcode
  exact icodeToFcode_correct etherGraph {0, 1, 2} id 2 (by decide) hflow
    (by decide) (by decide) (by decide) (by decide) (by decide)

end Bpf
end StockFeed
