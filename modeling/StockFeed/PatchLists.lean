import StockFeed.FilterExpr

/-!
# Pieces of filter and their chains

`gencode.c` builds a filter while it parses.  A piece of filter is handed on as
its last block.  Branches whose target is not known yet are chained through
the very fields that are to be filled in: `sense` says which field of a block
is a link, and two chains start at the last block, one for each outcome.
`gen_and` and `gen_or` fill one chain of the first piece and append the other
one to a chain of the second.
-/

namespace StockFeed
namespace Bpf

/-! ## The heap -/

/-- The blocks, and the first number which is free. -/
structure Heap where
  graph : Graph
  next : ℕ

abbrev Gen := StateT Heap Option

def Heap.empty : Heap :=
  ⟨fun p => ⟨[], .jump .jeq .K, 0, 0, 0, 0, false, none, none, p⟩, 0⟩

/-- `new_block`; the memory is zeroed. -/
def newBlock (code : Branch) : Gen ℕ := fun h =>
  let b : Block := ⟨[], code, 0, 0, 0, 0, false, none, none, h.next⟩
  some (h.next, ⟨Function.update h.graph h.next b, h.next + 1⟩)

/-- An assignment to fields of a block. -/
def setBlock (p : ℕ) (change : Block → Block) : Gen Unit := fun h =>
  some ((), { h with graph := Function.update h.graph p (change (h.graph p)) })

def getBlock (p : ℕ) : Gen Block := fun h => some (h.graph p, h)

/-! ## Chains -/

/-- The field which is a link. -/
def Block.link (b : Block) : Option ℕ := if b.sense then b.jf else b.jt

def Block.setLink (b : Block) (target : Option ℕ) : Block :=
  if b.sense then { b with jf := target } else { b with jt := target }

/-- The loop of `backpatch`.  A chain is not longer than there are blocks. -/
def backpatchLoop : ℕ → Option ℕ → ℕ → Graph → Option Graph
  | _, none, _, g => some g
  | 0, some _, _, _ => none
  | fuel + 1, some p, target, g =>
      backpatchLoop fuel (g p).link target
        (Function.update g p ((g p).setLink target))

def backpatch (list : Option ℕ) (target : ℕ) : Gen Unit := fun h => do
  let graph ← backpatchLoop h.next list target h.graph
  return ((), { h with graph := graph })

/-- The loop of `merge`: find the end of the chain, and let it go on at `b1`. -/
def mergeLoop : ℕ → ℕ → ℕ → Graph → Option Graph
  | 0, _, _, _ => none
  | fuel + 1, p, b1, g =>
      match (g p).link with
      | some q => mergeLoop fuel q b1 g
      | none => some (Function.update g p ((g p).setLink b1))

def merge (b0 b1 : ℕ) : Gen Unit := fun h => do
  let graph ← mergeLoop h.next b0 b1 h.graph
  return ((), { h with graph := graph })

/-- `b->sense = !b->sense`. -/
def flipSense (b : ℕ) : Gen Unit :=
  setBlock b fun block => { block with sense := !block.sense }

def genAnd (b0 b1 : ℕ) : Gen Unit := do
  backpatch b0 (← getBlock b1).head
  flipSense b0
  flipSense b1
  merge b1 b0
  flipSense b1
  let head := (← getBlock b0).head
  setBlock b1 fun block => { block with head := head }

def genOr (b0 b1 : ℕ) : Gen Unit := do
  flipSense b0
  backpatch b0 (← getBlock b1).head
  flipSense b0
  merge b1 b0
  let head := (← getBlock b0).head
  setBlock b1 fun block => { block with head := head }

def genNot (b : ℕ) : Gen Unit := flipSense b

/-! ## What the loops do -/

/-- A branch: a block and a side. -/
abbrev Hole := ℕ × Bool

/-- Each branch of the chain leads to the block of the next one. -/
def Linked (g : Graph) : List Hole → Prop
  | [] => True
  | (p, side) :: rest => g.edge p side = rest.head?.map Prod.fst ∧ Linked g rest

/-- The branches of a list are set. -/
def fill (g : Graph) (holes : List Hole) (target : Option ℕ) : Graph := fun p =>
  let jt := if (p, false) ∈ holes then target else (g p).jt
  let jf := if (p, true) ∈ holes then target else (g p).jf
  { g p with jt := jt, jf := jf }

@[simp] theorem edge_fill
    (g : Graph) (holes : List Hole) (target : Option ℕ) (p : ℕ) (side : Bool) :
    (fill g holes target).edge p side =
      if (p, side) ∈ holes then target else g.edge p side := by
  cases side <;> simp [Graph.edge, fill]

@[simp] theorem fill_sense
    (g : Graph) (holes : List Hole) (target : Option ℕ) (p : ℕ) :
    (fill g holes target p).sense = (g p).sense := rfl

theorem fill_of_not_mem
    {g : Graph} {holes : List Hole} {target : Option ℕ} {p : ℕ}
    (hp : ∀ side, (p, side) ∉ holes) : fill g holes target p = g p := by
  simp only [fill, if_neg (hp false), if_neg (hp true)]

theorem fill_nil (g : Graph) (target : Option ℕ) : fill g [] target = g := by
  funext p
  exact fill_of_not_mem fun side => List.not_mem_nil

theorem fill_cons
    (g : Graph) (hole : Hole) (holes : List Hole) (target : Option ℕ) :
    fill (fill g [hole] target) holes target = fill g (hole :: holes) target := by
  funext p
  simp only [fill, List.mem_cons, List.not_mem_nil, or_false]
  congr 1 <;> split_ifs <;> simp_all

section Chains

variable {g : Graph} {holes : List Hole}

theorem Block.link_eq_edge (g : Graph) (p : ℕ) :
    (g p).link = g.edge p (g p).sense := rfl

theorem update_setLink {p : ℕ} {side : Bool} (hsense : (g p).sense = side)
    (target : Option ℕ) :
    Function.update g p ((g p).setLink target) = fill g [(p, side)] target := by
  funext q
  by_cases hq : q = p
  · subst hq
    rw [Function.update_self, Block.setLink, hsense]
    cases side <;> simp [fill, hsense]
  · rw [Function.update_of_ne hq, fill_of_not_mem]
    simp [hq]

/-- A chain does not change if its branches do not. -/
theorem Linked.congr
    {g' : Graph} (hlinked : Linked g holes)
    (hsame : ∀ hole ∈ holes, g'.edge hole.1 hole.2 = g.edge hole.1 hole.2) :
    Linked g' holes := by
  induction holes with
  | nil => trivial
  | cons hole rest ih =>
      obtain ⟨hedge, hrest⟩ := hlinked
      exact ⟨(hsame hole List.mem_cons_self).trans hedge,
        ih hrest fun other hother => hsame other (List.mem_cons_of_mem hole hother)⟩

theorem backpatchLoop_eq
    (hlinked : Linked g holes) (hsense : ∀ hole ∈ holes, (g hole.1).sense = hole.2)
    (hnodup : (holes.map Prod.fst).Nodup) {fuel : ℕ}
    (hfuel : holes.length ≤ fuel) (target : ℕ) :
    backpatchLoop fuel (holes.head?.map Prod.fst) target g =
      some (fill g holes (some target)) := by
  induction holes generalizing g fuel with
  | nil =>
      rw [fill_nil]
      cases fuel <;> rfl
  | cons hole rest ih =>
      obtain ⟨p, side⟩ := hole
      cases fuel with
      | zero => simp at hfuel
      | succ fuel =>
          obtain ⟨hedge, hrest⟩ := hlinked
          have hp := hsense (p, side) List.mem_cons_self
          rw [List.map_cons, List.nodup_cons] at hnodup
          have hother : ∀ hole ∈ rest, hole.1 ≠ p := by
            intro hole hhole heq
            exact hnodup.1 (List.mem_map.mpr ⟨hole, hhole, heq⟩)
          change backpatchLoop fuel (g p).link target
            (Function.update g p ((g p).setLink target)) = _
          rw [update_setLink hp, Block.link_eq_edge, hp, hedge, ih, fill_cons]
          · refine hrest.congr fun hole hhole => ?_
            rw [edge_fill, if_neg]
            rw [List.mem_singleton]
            exact fun heq => hother hole hhole (congrArg Prod.fst heq)
          · intro hole hhole
            rw [fill_sense]
            exact hsense hole (List.mem_cons_of_mem _ hhole)
          · exact hnodup.2
          · simpa using hfuel

theorem mergeLoop_eq
    {hole : Hole} {rest : List Hole} (hlinked : Linked g (hole :: rest))
    (hsense : ∀ other ∈ hole :: rest, (g other.1).sense = other.2) {fuel : ℕ}
    (hfuel : rest.length < fuel) (b1 : ℕ) :
    mergeLoop fuel hole.1 b1 g =
      some (fill g [(hole :: rest).getLast (List.cons_ne_nil _ _)] (some b1)) := by
  induction rest generalizing hole fuel with
  | nil =>
      obtain ⟨p, side⟩ := hole
      cases fuel with
      | zero => simp at hfuel
      | succ fuel =>
          have hp := hsense (p, side) List.mem_cons_self
          rw [mergeLoop, Block.link_eq_edge, hp, hlinked.1]
          simp only [List.head?_nil, Option.map_none, List.getLast_singleton]
          rw [update_setLink hp]
  | cons next rest ih =>
      obtain ⟨p, side⟩ := hole
      cases fuel with
      | zero => simp at hfuel
      | succ fuel =>
          have hp := hsense (p, side) List.mem_cons_self
          rw [mergeLoop, Block.link_eq_edge, hp, hlinked.1]
          simp only [List.head?_cons, Option.map_some]
          rw [ih hlinked.2 (fun other hother =>
              hsense other (List.mem_cons_of_mem _ hother)) (by simpa using hfuel),
            List.getLast_cons (List.cons_ne_nil _ _)]

end Chains

/-! ## Fragments -/

/-- The open branches of a piece with last block `b`, for each outcome: one of
the two branches of `b`, then those chained behind it. -/
def Graph.holes (g : Graph) (b : ℕ) (tails : Bool → List Hole) (value : Bool) :
    List Hole :=
  (b, (g b).sense == value) :: tails value

/-- `g'` has the blocks of a piece of `g`, with its open branches led to the
exits. -/
structure Closes (g g' : Graph) (nodes : List ℕ) (holes : Bool → List Hole)
    (exits : Bool → Option ℕ) : Prop where
  tests : ∀ p ∈ nodes, ∀ test, Tests g p test → Tests g' p test
  exit : ∀ value, ∀ hole ∈ holes value, g'.edge hole.1 hole.2 = exits value
  inner : ∀ p ∈ nodes, ∀ side, (∀ value, (p, side) ∉ holes value) →
    g'.edge p side = g.edge p side

/-- The blocks `nodes` are a piece of filter for `e` with last block `b`.  A
block which is chained has one open branch, `b` has two. -/
structure Frag (g : Graph) (b : ℕ) (tails : Bool → List Hole) (e : Expr)
    (nodes : List ℕ) : Prop where
  implements : ∀ g' exits, Closes g g' nodes (g.holes b tails) exits →
    Implements g' e (g b).head (exits true) (exits false) nodes
  linked : ∀ value, Linked g (g.holes b tails value)
  sense : ∀ value, ∀ hole ∈ tails value, (g hole.1).sense = hole.2
  last : b ∈ nodes
  chained : ∀ value, ∀ hole ∈ tails value, hole.1 ∈ nodes
  fresh : ∀ value, ∀ hole ∈ tails value, hole.1 ≠ b
  apart : ∀ hole ∈ tails true, ∀ other ∈ tails false, hole.1 ≠ other.1
  distinct : ∀ value, ((tails value).map Prod.fst).Nodup
  nodup : nodes.Nodup

section Frag

variable {g : Graph} {b : ℕ} {tails : Bool → List Hole} {e : Expr}
  {nodes : List ℕ}

theorem Frag.holes_mem
    (hfrag : Frag g b tails e nodes) {value : Bool} {hole : Hole}
    (hhole : hole ∈ g.holes b tails value) : hole.1 ∈ nodes := by
  rcases List.mem_cons.mp hhole with rfl | hmem
  · exact hfrag.last
  · exact hfrag.chained value hole hmem

theorem Frag.holes_nodup
    (hfrag : Frag g b tails e nodes) (value : Bool) :
    ((g.holes b tails value).map Prod.fst).Nodup := by
  refine List.nodup_cons.mpr ⟨?_, hfrag.distinct value⟩
  intro hmem
  obtain ⟨hole, hhole, heq⟩ := List.mem_map.mp hmem
  exact hfrag.fresh value hole hhole heq

/-- No branch is open for both outcomes. -/
theorem Frag.holes_disjoint
    (hfrag : Frag g b tails e nodes) {value : Bool} {hole : Hole}
    (hhole : hole ∈ g.holes b tails value) : hole ∉ g.holes b tails (!value) := by
  intro hother
  rcases List.mem_cons.mp hhole with rfl | hmem
  · rcases List.mem_cons.mp hother with heq | hmem'
    · cases hsense : (g b).sense <;> cases value <;> simp [hsense] at heq
    · exact hfrag.fresh _ _ hmem' rfl
  · rcases List.mem_cons.mp hother with rfl | hmem'
    · exact hfrag.fresh _ _ hmem rfl
    · cases value with
      | true => exact hfrag.apart hole hmem hole hmem' rfl
      | false => exact hfrag.apart hole hmem' hole hmem rfl

/-- A list of different blocks below `n` has at most `n` entries. -/
theorem length_le_of_lt
    {holes : List Hole} (hnodup : (holes.map Prod.fst).Nodup) {n : ℕ}
    (hlt : ∀ hole ∈ holes, hole.1 < n) : holes.length ≤ n := by
  have hsub : holes.map Prod.fst ⊆ List.range n := by
    intro p hp
    obtain ⟨hole, hhole, rfl⟩ := List.mem_map.mp hp
    exact List.mem_range.mpr (hlt hole hhole)
  simpa using (List.subperm_of_subset hnodup hsub).length_le

/-- A piece does not depend on other blocks. -/
theorem Frag.congr
    (hfrag : Frag g b tails e nodes) {g' : Graph}
    (hsame : ∀ p ∈ nodes, g' p = g p) : Frag g' b tails e nodes := by
  have hedge : ∀ p ∈ nodes, ∀ side, g'.edge p side = g.edge p side := by
    intro p hp side
    rw [Graph.edge, Graph.edge, hsame p hp]
  have hholes : g'.holes b tails = g.holes b tails := by
    funext value
    rw [Graph.holes, Graph.holes, hsame b hfrag.last]
  refine { hfrag with
    implements := ?_
    linked := ?_
    sense := ?_ }
  · intro g'' exits hcloses
    rw [hholes] at hcloses
    rw [hsame b hfrag.last]
    refine hfrag.implements g'' exits ⟨?_, hcloses.exit, ?_⟩
    · intro p hp test htest
      refine hcloses.tests p hp test ?_
      obtain ⟨hstmts, hcode, hk, hjt, hjf⟩ := htest
      rw [← hsame p hp] at hstmts hcode hk hjt hjf
      exact ⟨hstmts, hcode, hk, hjt, hjf⟩
    · intro p hp side hclosed
      rw [hcloses.inner p hp side hclosed, hedge p hp]
  · intro value
    rw [hholes]
    exact (hfrag.linked value).congr fun hole hhole =>
      hedge hole.1 (hfrag.holes_mem hhole) hole.2
  · intro value hole hhole
    rw [hsame hole.1 (hfrag.chained value hole hhole)]
    exact hfrag.sense value hole hhole

end Frag

/-! ## Joining two pieces -/

/-- `&&` for `true`, `||` for `false`: the first operand decides unless it has
this value. -/
def Expr.join (value : Bool) (e₀ e₁ : Expr) : Expr :=
  if value then .and e₀ e₁ else .or e₀ e₁

theorem Implements.join
    {g : Graph} {value : Bool} {e₀ e₁ : Expr} {root : ℕ} (mid : ℕ)
    {exits : Bool → Option ℕ} {nodes₀ nodes₁ : List ℕ}
    (hfirst : Implements g e₀ root
      (Function.update exits value (some mid) true)
      (Function.update exits value (some mid) false) nodes₀)
    (hsecond : Implements g e₁ mid (exits true) (exits false) nodes₁) :
    Implements g (.join value e₀ e₁) root (exits true) (exits false)
      (nodes₀ ++ nodes₁) := by
  cases value with
  | true =>
      rw [Function.update_self, Function.update_of_ne (by decide)] at hfirst
      exact .and hfirst hsecond
  | false =>
      rw [Function.update_self, Function.update_of_ne (by decide)] at hfirst
      exact .or hfirst hsecond

/-- The open branches behind the last block of the joined piece. -/
def joinTails (g : Graph) (b0 : ℕ) (value : Bool) (tails₀ tails₁ : Bool → List Hole) :
    Bool → List Hole :=
  Function.update tails₁ (!value) (tails₁ (!value) ++ g.holes b0 tails₀ (!value))

/-- What `gen_and` and `gen_or` do to the heap: the branches of the first piece
for one outcome lead to the second piece, the chains for the other outcome are
joined, and the second piece starts where the first one does. -/
structure Joined (g g' : Graph) (value : Bool) (b0 b1 : ℕ)
    (tails₀ tails₁ : Bool → List Hole) : Prop where
  tests : ∀ p test, Tests g p test → Tests g' p test
  edge : ∀ p side, g'.edge p side =
    if (p, side) ∈ g.holes b0 tails₀ value then some (g b1).head
    else if (p, side) = (g.holes b1 tails₁ (!value)).getLast
      (List.cons_ne_nil _ _) then some b0
    else g.edge p side
  sense : ∀ p, p ≠ b0 → (g' p).sense = (g p).sense
  sense_first : (g' b0).sense = ((g b0).sense == !value)
  head : (g' b1).head = (g b0).head

section Joined

variable {g g' : Graph} {value : Bool} {b0 b1 : ℕ} {tails₀ tails₁ : Bool → List Hole}
  {e₀ e₁ : Expr} {nodes₀ nodes₁ : List ℕ}

/-- The end of the second piece's chain. -/
theorem Frag.last_mem (hsecond : Frag g b1 tails₁ e₁ nodes₁) (value : Bool) :
    ((g.holes b1 tails₁ value).getLast (List.cons_ne_nil _ _)).1 ∈ nodes₁ :=
  hsecond.holes_mem (List.getLast_mem _)

theorem Joined.edge_first
    (hjoined : Joined g g' value b0 b1 tails₀ tails₁)
    (hsecond : Frag g b1 tails₁ e₁ nodes₁) {p : ℕ} (hp : p ∉ nodes₁)
    (side : Bool) :
    g'.edge p side =
      if (p, side) ∈ g.holes b0 tails₀ value then some (g b1).head
      else g.edge p side := by
  rw [hjoined.edge]
  congr 1
  rw [if_neg]
  intro heq
  have hmem := hsecond.last_mem (!value)
  rw [← heq] at hmem
  exact hp hmem

theorem Joined.edge_second
    (hjoined : Joined g g' value b0 b1 tails₀ tails₁)
    (hfirst : Frag g b0 tails₀ e₀ nodes₀) {p : ℕ} (hp : p ∉ nodes₀) (side : Bool) :
    g'.edge p side =
      if (p, side) = (g.holes b1 tails₁ (!value)).getLast
        (List.cons_ne_nil _ _) then some b0
      else g.edge p side := by
  rw [hjoined.edge, if_neg]
  exact fun hmem => hp (hfirst.holes_mem hmem)

/-- A chain goes on at `b0`. -/
theorem Linked.append
    {g g' : Graph} {holes rest : List Hole} (hne : holes ≠ [])
    (hlinked : Linked g holes) (hrest : Linked g' rest)
    (hinner : ∀ hole ∈ holes, hole ≠ holes.getLast hne →
      g'.edge hole.1 hole.2 = g.edge hole.1 hole.2)
    (hlast : g'.edge (holes.getLast hne).1 (holes.getLast hne).2 =
      rest.head?.map Prod.fst)
    (hnodup : holes.Nodup) : Linked g' (holes ++ rest) := by
  induction holes with
  | nil => exact absurd rfl hne
  | cons hole more ih =>
      cases more with
      | nil => exact ⟨hlast, hrest⟩
      | cons next more =>
          obtain ⟨hedge, hmore⟩ := hlinked
          have hlast_eq : (hole :: next :: more).getLast hne =
              (next :: more).getLast (List.cons_ne_nil _ _) :=
            List.getLast_cons (List.cons_ne_nil _ _)
          rw [hlast_eq] at hinner hlast
          obtain ⟨hfresh, hnodup'⟩ := List.nodup_cons.mp hnodup
          refine ⟨?_, ih (List.cons_ne_nil _ _) hmore (fun other hother =>
            hinner other (List.mem_cons_of_mem _ hother)) hlast hnodup'⟩
          have hsame := hinner hole List.mem_cons_self fun heq =>
            hfresh (heq ▸ List.getLast_mem _)
          rw [hsame, hedge]
          rfl

theorem Joined.holes_eq
    (hjoined : Joined g g' value b0 b1 tails₀ tails₁) (hne : b1 ≠ b0)
    (outcome : Bool) :
    g'.holes b1 (joinTails g b0 value tails₀ tails₁) outcome =
      if outcome = !value then
        g.holes b1 tails₁ outcome ++ g.holes b0 tails₀ outcome
      else g.holes b1 tails₁ outcome := by
  rw [Graph.holes, hjoined.sense b1 hne, joinTails]
  split_ifs with houtcome
  · subst houtcome
    rw [Function.update_self]
    rfl
  · rw [Function.update_of_ne houtcome]
    rfl

theorem Joined.frag
    (hjoined : Joined g g' value b0 b1 tails₀ tails₁)
    (hfirst : Frag g b0 tails₀ e₀ nodes₀) (hsecond : Frag g b1 tails₁ e₁ nodes₁)
    (hdisjoint : ∀ p ∈ nodes₀, p ∉ nodes₁) :
    Frag g' b1 (joinTails g b0 value tails₀ tails₁) (.join value e₀ e₁)
      (nodes₀ ++ nodes₁) := by
  have hdisjoint' : ∀ p ∈ nodes₁, p ∉ nodes₀ := fun p hp hp' =>
    hdisjoint p hp' hp
  have hne : b1 ≠ b0 := by
    rintro rfl
    exact hdisjoint b1 hfirst.last hsecond.last
  have hholes := hjoined.holes_eq hne
  -- the open branches of the two pieces which stay open
  have hopen₀ : ∀ hole ∈ g.holes b0 tails₀ (!value),
      hole ∈ g'.holes b1 (joinTails g b0 value tails₀ tails₁) (!value) := by
    intro hole hhole
    rw [hholes, if_pos rfl]
    exact List.mem_append_right _ hhole
  have hopen₁ : ∀ outcome, ∀ hole ∈ g.holes b1 tails₁ outcome,
      hole ∈ g'.holes b1 (joinTails g b0 value tails₀ tails₁) outcome := by
    intro outcome hole hhole
    rw [hholes]
    split_ifs
    · exact List.mem_append_left _ hhole
    · exact hhole
  have hopen : ∀ outcome,
      ∀ hole ∈ g'.holes b1 (joinTails g b0 value tails₀ tails₁) outcome,
        hole ∈ g.holes b1 tails₁ outcome ∨
          outcome = !value ∧ hole ∈ g.holes b0 tails₀ outcome := by
    intro outcome hole hhole
    rw [hholes] at hhole
    split_ifs at hhole with houtcome
    · exact (List.mem_append.mp hhole).imp_right fun hmem => ⟨houtcome, hmem⟩
    · exact Or.inl hhole
  have htails : ∀ outcome,
      ∀ hole ∈ joinTails g b0 value tails₀ tails₁ outcome,
        hole ∈ tails₁ outcome ∨
          outcome = !value ∧ hole ∈ g.holes b0 tails₀ outcome := by
    intro outcome hole hhole
    rw [joinTails] at hhole
    by_cases houtcome : outcome = !value
    · subst houtcome
      rw [Function.update_self] at hhole
      exact (List.mem_append.mp hhole).imp_right fun hmem => ⟨rfl, hmem⟩
    · rw [Function.update_of_ne houtcome] at hhole
      exact Or.inl hhole
  refine ⟨?_, ?_, ?_, List.mem_append_right _ hsecond.last, ?_, ?_, ?_, ?_, ?_⟩
  case refine_1 =>
    intro g'' exits hcloses
    rw [hjoined.head]
    refine Implements.join (g b1).head ?_ ?_
    · -- the first piece
      refine hfirst.implements g'' _ ⟨?_, ?_, ?_⟩
      · intro p hp test htest
        exact hcloses.tests p (List.mem_append_left _ hp) test
          (hjoined.tests p test htest)
      · intro outcome hole hhole
        by_cases houtcome : outcome = value
        · subst houtcome
          have hmem := hfirst.holes_mem hhole
          rw [Function.update_self, hcloses.inner hole.1
            (List.mem_append_left _ hmem) hole.2, hjoined.edge_first hsecond
            (hdisjoint _ hmem), if_pos hhole]
          intro other hother
          rcases hopen other hole hother with h₁ | ⟨rfl, h₀⟩
          · exact hdisjoint _ hmem (hsecond.holes_mem h₁)
          · exact hfirst.holes_disjoint hhole h₀
        · have hneg : outcome = !value := by
            cases outcome <;> cases value <;> simp_all
          subst hneg
          rw [Function.update_of_ne houtcome]
          exact hcloses.exit _ hole (hopen₀ hole hhole)
      · intro p hp side hclosed
        rw [hcloses.inner p (List.mem_append_left _ hp) side,
          hjoined.edge_first hsecond (hdisjoint p hp), if_neg (hclosed value)]
        intro outcome hother
        rcases hopen outcome _ hother with h₁ | ⟨_, h₀⟩
        · exact hdisjoint p hp (hsecond.holes_mem h₁)
        · exact hclosed outcome h₀
    · -- the second piece
      refine hsecond.implements g'' exits ⟨?_, ?_, ?_⟩
      · intro p hp test htest
        exact hcloses.tests p (List.mem_append_right _ hp) test
          (hjoined.tests p test htest)
      · intro outcome hole hhole
        exact hcloses.exit outcome hole (hopen₁ outcome hole hhole)
      · intro p hp side hclosed
        rw [hcloses.inner p (List.mem_append_right _ hp) side,
          hjoined.edge_second hfirst (hdisjoint' p hp), if_neg]
        · intro heq
          exact hclosed (!value) (heq ▸ List.getLast_mem _)
        · intro outcome hother
          rcases hopen outcome _ hother with h₁ | ⟨_, h₀⟩
          · exact hclosed outcome h₁
          · exact hdisjoint' p hp (hfirst.holes_mem h₀)
  case refine_2 =>
    intro outcome
    rw [hholes]
    split_ifs with houtcome
    · subst houtcome
      refine Linked.append (List.cons_ne_nil _ _) (hsecond.linked (!value)) ?_ ?_ ?_ ?_
      · refine (hfirst.linked (!value)).congr fun hole hhole => ?_
        have hmem := hfirst.holes_mem hhole
        rw [hjoined.edge_first hsecond (hdisjoint _ hmem), if_neg]
        have hother := hfirst.holes_disjoint hhole
        rwa [Bool.not_not] at hother
      · intro hole hhole hlast
        rw [hjoined.edge_second hfirst (hdisjoint' _ (hsecond.holes_mem hhole)),
          if_neg hlast]
      · rw [hjoined.edge_second hfirst (hdisjoint' _ (hsecond.last_mem _)),
          if_pos rfl]
        rfl
      · exact (hsecond.holes_nodup (!value)).of_map
    · refine (hsecond.linked outcome).congr fun hole hhole => ?_
      rw [hjoined.edge_second hfirst (hdisjoint' _ (hsecond.holes_mem hhole)),
        if_neg]
      intro heq
      have hvalue : outcome = value := by
        cases outcome <;> cases value <;> simp_all
      subst hvalue
      have hmem : hole ∈ g.holes b1 tails₁ (!outcome) := by
        rw [← Prod.mk.eta (p := hole), heq]
        exact List.getLast_mem _
      exact hsecond.holes_disjoint hhole hmem
  case refine_3 =>
    intro outcome hole hhole
    rcases htails outcome hole hhole with h₁ | ⟨rfl, h₀⟩
    · rw [hjoined.sense, hsecond.sense outcome hole h₁]
      intro heq
      exact hdisjoint b0 hfirst.last (heq ▸ hsecond.chained outcome hole h₁)
    · rcases List.mem_cons.mp h₀ with rfl | hmem
      · exact hjoined.sense_first
      · rw [hjoined.sense _ (hfirst.fresh _ hole hmem),
          hfirst.sense _ hole hmem]
  case refine_4 =>
    intro outcome hole hhole
    rcases htails outcome hole hhole with h₁ | ⟨_, h₀⟩
    · exact List.mem_append_right _ (hsecond.chained outcome hole h₁)
    · exact List.mem_append_left _ (hfirst.holes_mem h₀)
  case refine_5 =>
    intro outcome hole hhole heq
    rcases htails outcome hole hhole with h₁ | ⟨_, h₀⟩
    · exact hsecond.fresh outcome hole h₁ heq
    · exact hdisjoint' b1 hsecond.last (heq ▸ hfirst.holes_mem h₀)
  case refine_6 =>
    intro hole hhole other hother heq
    rcases htails true hole hhole with h₁ | ⟨hv, h₀⟩ <;>
      rcases htails false other hother with h₁' | ⟨hv', h₀'⟩
    · exact hsecond.apart hole h₁ other h₁' heq
    · exact hdisjoint' hole.1 (hsecond.chained true hole h₁)
        (heq ▸ hfirst.holes_mem h₀')
    · exact hdisjoint hole.1 (hfirst.holes_mem h₀)
        (heq ▸ hsecond.chained false other h₁')
    · cases value <;> simp at hv hv'
  case refine_7 =>
    intro outcome
    rw [joinTails]
    by_cases houtcome : outcome = !value
    · subst houtcome
      rw [Function.update_self, List.map_append, List.nodup_append]
      refine ⟨hsecond.distinct _, hfirst.holes_nodup _, ?_⟩
      intro p hp q hq heq
      obtain ⟨hole, hhole, rfl⟩ := List.mem_map.mp hp
      obtain ⟨other, hother, rfl⟩ := List.mem_map.mp hq
      exact hdisjoint' hole.1 (hsecond.chained _ hole hhole)
        (heq ▸ hfirst.holes_mem hother)
    · rw [Function.update_of_ne houtcome]
      exact hsecond.distinct outcome
  case refine_8 =>
    rw [List.nodup_append]
    exact ⟨hfirst.nodup, hsecond.nodup, fun p hp q hq heq =>
      hdisjoint p hp (heq ▸ hq)⟩

end Joined

/-! ## The operations on the heap -/

def Graph.flip (g : Graph) (b : ℕ) : Graph :=
  Function.update g b { g b with sense := !(g b).sense }

def Graph.setHead (g : Graph) (b head : ℕ) : Graph :=
  Function.update g b { g b with head := head }

section Assignments

variable (g : Graph) (b head p : ℕ) (side : Bool)

theorem update_field
    {α : Type} (field : Block → α) (block : Block) (hfield : field block = field (g b)) :
    field (Function.update g b block p) = field (g p) := by
  by_cases hp : p = b
  · rw [hp, Function.update_self, hfield]
  · rw [Function.update_of_ne hp]

@[simp] theorem edge_flip : (g.flip b).edge p side = g.edge p side :=
  update_field g b p (fun block => if side then block.jf else block.jt) _ rfl

@[simp] theorem flip_head : (g.flip b p).head = (g p).head :=
  update_field g b p Block.head _ rfl

theorem flip_sense_self : (g.flip b b).sense = !(g b).sense := by
  rw [Graph.flip, Function.update_self]

theorem flip_of_ne {p : ℕ} (hp : p ≠ b) : g.flip b p = g p :=
  Function.update_of_ne hp ..

@[simp] theorem edge_setHead : (g.setHead b head).edge p side = g.edge p side :=
  update_field g b p (fun block => if side then block.jf else block.jt) _ rfl

@[simp] theorem setHead_sense : (g.setHead b head p).sense = (g p).sense :=
  update_field g b p Block.sense _ rfl

theorem setHead_of_ne {p : ℕ} (hp : p ≠ b) : g.setHead b head p = g p :=
  Function.update_of_ne hp ..

@[simp] theorem fill_head (holes : List Hole) (target : Option ℕ) :
    (fill g holes target p).head = (g p).head := rfl

variable {g p} {test : Test}

theorem Tests.congr {g' : Graph} (htest : Tests g p test) (hsame : g' p = g p) :
    Tests g' p test := by
  obtain ⟨hstmts, hcode, hk, hjt, hjf⟩ := htest
  rw [← hsame] at hstmts hcode hk hjt hjf
  exact ⟨hstmts, hcode, hk, hjt, hjf⟩

theorem Tests.fill (htest : Tests g p test) (holes : List Hole) (target : Option ℕ) :
    Tests (fill g holes target) p test :=
  ⟨htest.stmts, htest.code, htest.k, htest.longjt, htest.longjf⟩

theorem Tests.update
    (htest : Tests g p test) {block : Block}
    (hstmts : block.stmts = (g b).stmts) (hcode : block.code = (g b).code)
    (hk : block.k = (g b).k) (hlongjt : block.longjt = (g b).longjt)
    (hlongjf : block.longjf = (g b).longjf) :
    Tests (Function.update g b block) p test :=
  ⟨(update_field g b p Block.stmts _ hstmts).trans htest.stmts,
    (update_field g b p Block.code _ hcode).trans htest.code,
    (update_field g b p Block.k _ hk).trans htest.k,
    (update_field g b p Block.longjt _ hlongjt).trans htest.longjt,
    (update_field g b p Block.longjf _ hlongjf).trans htest.longjf⟩

theorem Tests.flip (htest : Tests g p test) : Tests (g.flip b) p test :=
  htest.update b rfl rfl rfl rfl rfl

theorem Tests.setHead (htest : Tests g p test) : Tests (g.setHead b head) p test :=
  htest.update b rfl rfl rfl rfl rfl

end Assignments

theorem Gen.bind_apply {α β : Type} (m : Gen α) (f : α → Gen β) (h : Heap) :
    (m >>= f) h = (m h).bind fun r => f r.1 r.2 := rfl

theorem Gen.pure_apply {α : Type} (a : α) (h : Heap) :
    (pure a : Gen α) h = some (a, h) := rfl

theorem flipSense_apply (b : ℕ) (h : Heap) :
    flipSense b h = some ((), { h with graph := h.graph.flip b }) := rfl

theorem getBlock_apply (b : ℕ) (h : Heap) : getBlock b h = some (h.graph b, h) :=
  rfl

section Pieces

variable {g : Graph} {b : ℕ} {tails : Bool → List Hole} {e : Expr}
  {nodes : List ℕ} {test : Test}

/-- A block with two open branches is a piece. -/
theorem Frag.of_test
    (htest : Tests g b test) (hsense : (g b).sense = false)
    (hopen : ∀ side, g.edge b side = none) (hhead : (g b).head = b) :
    Frag g b (fun _ => []) (.test test) [b] := by
  refine ⟨?_, ?_, ?_, List.mem_singleton_self b, ?_, ?_, ?_, ?_,
    List.nodup_singleton b⟩
  · intro g' exits hcloses
    have hedge : ∀ value, g'.edge b (!value) = exits value := by
      intro value
      refine hcloses.exit value (b, !value) ?_
      simp [Graph.holes, hsense]
    have hnew := Implements.test (hcloses.tests b (List.mem_singleton_self b) test
      htest)
    rw [hhead, ← hedge true, ← hedge false]
    exact hnew
  · exact fun value => ⟨hopen _, trivial⟩
  all_goals simp

/-- With the sense of the last block, the outcomes change places. -/
theorem Frag.not (hfrag : Frag g b tails e nodes) :
    Frag (g.flip b) b (fun value => tails (!value)) (.not e) nodes := by
  have hholes : ∀ value,
      (g.flip b).holes b (fun value => tails (!value)) value =
        g.holes b tails (!value) := by
    intro value
    rw [Graph.holes, Graph.holes, flip_sense_self]
    cases (g b).sense <;> cases value <;> rfl
  refine ⟨?_, ?_, ?_, hfrag.last, fun value => hfrag.chained _,
    fun value => hfrag.fresh _, ?_, fun value => hfrag.distinct _, hfrag.nodup⟩
  · intro g' exits hcloses
    rw [flip_head]
    refine .not (hfrag.implements g' (fun value => exits (!value)) ⟨?_, ?_, ?_⟩)
    · intro p hp test htest
      exact hcloses.tests p hp test (htest.flip b)
    · intro value hole hhole
      refine hcloses.exit (!value) hole ?_
      rwa [hholes, Bool.not_not]
    · intro p hp side hclosed
      rw [hcloses.inner p hp side, edge_flip]
      intro value hmem
      rw [hholes] at hmem
      exact hclosed _ hmem
  · intro value
    rw [hholes]
    exact (hfrag.linked _).congr fun hole _ => edge_flip ..
  · intro value hole hhole
    rw [flip_of_ne _ _ (hfrag.fresh _ hole hhole)]
    exact hfrag.sense _ hole hhole
  · intro hole hhole other hother heq
    exact hfrag.apart other hother hole hhole heq.symm

end Pieces

section Operations

variable {h : Heap} {b0 b1 : ℕ} {tails₀ tails₁ : Bool → List Hole} {e₀ e₁ : Expr}
  {nodes₀ nodes₁ : List ℕ}

/-- One of the two chains of a piece is filled, whichever `sense` points at. -/
theorem Frag.backpatch_apply
    (hfrag : Frag h.graph b0 tails₀ e₀ nodes₀)
    (hbound : ∀ p ∈ nodes₀, p < h.next) {n : ℕ} (hn : h.next ≤ n) (value : Bool)
    {g : Graph} (hlinked : Linked g (h.graph.holes b0 tails₀ value))
    (hsense : ∀ hole ∈ h.graph.holes b0 tails₀ value, (g hole.1).sense = hole.2)
    (target : ℕ) :
    backpatch b0 target ⟨g, n⟩ =
      some ((), ⟨fill g (h.graph.holes b0 tails₀ value) (some target), n⟩) := by
  have hlength := length_le_of_lt (hfrag.holes_nodup value)
    fun hole hhole => (hbound _ (hfrag.holes_mem hhole)).trans_le hn
  have hloop := backpatchLoop_eq hlinked hsense (hfrag.holes_nodup value) hlength
    target
  change backpatchLoop n (some b0) target g = _ at hloop
  change (backpatchLoop n (some b0) target g).bind _ = _
  rw [hloop]
  rfl

theorem Frag.merge_apply
    (hfrag : Frag h.graph b1 tails₁ e₁ nodes₁)
    (hbound : ∀ p ∈ nodes₁, p < h.next) (value : Bool) {g : Graph}
    (hlinked : Linked g (h.graph.holes b1 tails₁ value))
    (hsense : ∀ hole ∈ h.graph.holes b1 tails₁ value, (g hole.1).sense = hole.2)
    (b0 : ℕ) :
    merge b1 b0 ⟨g, h.next⟩ =
      some ((), ⟨fill g [(h.graph.holes b1 tails₁ value).getLast
        (List.cons_ne_nil _ _)] (some b0), h.next⟩) := by
  have hlength := length_le_of_lt (hfrag.holes_nodup value)
    fun hole hhole => hbound _ (hfrag.holes_mem hhole)
  have hloop := mergeLoop_eq hlinked hsense hlength b0
  change mergeLoop h.next b1 b0 g = _ at hloop
  change (mergeLoop h.next b1 b0 g).bind _ = _
  rw [hloop]
  rfl

theorem Frag.holes_sense
    (hfrag : Frag h.graph b0 tails₀ e₀ nodes₀) (value : Bool) {g : Graph}
    (hself : (g b0).sense = ((h.graph b0).sense == value))
    (hother : ∀ p ∈ nodes₀, p ≠ b0 → (g p).sense = (h.graph p).sense) :
    ∀ hole ∈ h.graph.holes b0 tails₀ value, (g hole.1).sense = hole.2 := by
  intro hole hhole
  rcases List.mem_cons.mp hhole with rfl | hmem
  · exact hself
  · rw [hother hole.1 (hfrag.chained value hole hmem) (hfrag.fresh value hole hmem),
      hfrag.sense value hole hmem]

/-- The chain of one piece is not changed by filling a chain of another. -/
theorem Frag.linked_fill
    (hsecond : Frag h.graph b1 tails₁ e₁ nodes₁)
    (hfirst : Frag h.graph b0 tails₀ e₀ nodes₀)
    (hdisjoint : ∀ p ∈ nodes₀, p ∉ nodes₁) (outcome value : Bool)
    (target : Option ℕ) {g : Graph}
    (hg : ∀ p side, g.edge p side =
      (fill h.graph (h.graph.holes b0 tails₀ value) target).edge p side) :
    Linked g (h.graph.holes b1 tails₁ outcome) := by
  refine (hsecond.linked outcome).congr fun hole hhole => ?_
  rw [hg, edge_fill, if_neg]
  intro hmem
  exact hdisjoint hole.1 (hfirst.holes_mem hmem) (hsecond.holes_mem hhole)

/-- The end of one chain and the branches of another are not the same. -/
theorem swap_holes
    (hfirst : Frag h.graph b0 tails₀ e₀ nodes₀)
    (hsecond : Frag h.graph b1 tails₁ e₁ nodes₁)
    (hdisjoint : ∀ p ∈ nodes₀, p ∉ nodes₁) {value outcome : Bool} {p : ℕ}
    {side : Bool} {a b c : Option ℕ} :
    (if (p, side) ∈ [(h.graph.holes b1 tails₁ outcome).getLast
        (List.cons_ne_nil _ _)] then a
      else if (p, side) ∈ h.graph.holes b0 tails₀ value then b else c) =
    if (p, side) ∈ h.graph.holes b0 tails₀ value then b
      else if (p, side) = (h.graph.holes b1 tails₁ outcome).getLast
        (List.cons_ne_nil _ _) then a else c := by
  simp only [List.mem_singleton]
  split_ifs with hlast hmem
  · have hsecond_mem := hsecond.last_mem outcome
    rw [← hlast] at hsecond_mem
    exact absurd hsecond_mem (hdisjoint p (hfirst.holes_mem hmem))
  all_goals rfl

variable (hfirst : Frag h.graph b0 tails₀ e₀ nodes₀)
  (hsecond : Frag h.graph b1 tails₁ e₁ nodes₁)
  (hdisjoint : ∀ p ∈ nodes₀, p ∉ nodes₁) (hbound₀ : ∀ p ∈ nodes₀, p < h.next)
  (hbound₁ : ∀ p ∈ nodes₁, p < h.next)

include hfirst hsecond hdisjoint hbound₀ hbound₁

theorem genAnd_apply :
    ∃ g', genAnd b0 b1 h = some ((), ⟨g', h.next⟩) ∧
      Joined h.graph g' true b0 b1 tails₀ tails₁ ∧
      ∀ p, p ∉ nodes₀ → p ∉ nodes₁ → g' p = h.graph p := by
  have hne : b1 ≠ b0 := by
    rintro rfl
    exact hdisjoint b1 hfirst.last hsecond.last
  obtain ⟨g₁, hg₁⟩ : ∃ g₁, g₁ = fill h.graph (h.graph.holes b0 tails₀ true)
    (some (h.graph b1).head) := ⟨_, rfl⟩
  obtain ⟨g₂, hg₂⟩ : ∃ g₂, g₂ = fill ((g₁.flip b0).flip b1)
    [(h.graph.holes b1 tails₁ false).getLast (List.cons_ne_nil _ _)] (some b0) :=
    ⟨_, rfl⟩
  have hfill : backpatch b0 (h.graph b1).head h = some ((), ⟨g₁, h.next⟩) := by
    rw [hg₁]
    exact hfirst.backpatch_apply hbound₀ le_rfl true (hfirst.linked true)
      (hfirst.holes_sense true (by simp) fun _ _ _ => rfl) _
  have hmerge : merge b1 b0 ⟨(g₁.flip b0).flip b1, h.next⟩ =
      some ((), ⟨g₂, h.next⟩) := by
    rw [hg₂]
    refine hsecond.merge_apply hbound₁ false ?_ ?_ b0
    · refine hsecond.linked_fill hfirst hdisjoint false true
        (some (h.graph b1).head) fun p side => ?_
      rw [edge_flip, edge_flip, hg₁]
    · refine hsecond.holes_sense false ?_ ?_
      · rw [flip_sense_self, flip_of_ne _ _ hne, hg₁, fill_sense]
        simp
      · intro p hp hpne
        have hpne' : p ≠ b0 := by
          rintro rfl
          exact hdisjoint p hfirst.last hp
        rw [flip_of_ne _ _ hpne, flip_of_ne _ _ hpne', hg₁, fill_sense]
  refine ⟨(g₂.flip b1).setHead b1 (h.graph b0).head, ?_, ?_, ?_⟩
  · simp only [genAnd, Gen.bind_apply, getBlock_apply, Option.bind_some,
      flipSense_apply, hfill, hmerge]
    rw [flip_head, hg₂, fill_head, flip_head, flip_head, hg₁, fill_head]
    rfl
  · refine ⟨?_, ?_, ?_, ?_, ?_⟩
    · intro p test htest
      rw [hg₂, hg₁]
      exact ((((htest.fill _ _).flip b0).flip b1).fill _ _ |>.flip b1).setHead b1 _
    · intro p side
      rw [edge_setHead, edge_flip, hg₂, edge_fill, edge_flip, edge_flip, hg₁,
        edge_fill]
      exact swap_holes hfirst hsecond hdisjoint
    · intro p hp
      rw [setHead_sense]
      by_cases hpb : p = b1
      · subst hpb
        rw [flip_sense_self, hg₂, fill_sense, flip_sense_self, flip_of_ne _ _ hne,
          hg₁, fill_sense, Bool.not_not]
      · rw [flip_of_ne _ _ hpb, hg₂, fill_sense, flip_of_ne _ _ hpb,
          flip_of_ne _ _ hp, hg₁, fill_sense]
    · rw [setHead_sense, flip_of_ne _ _ hne.symm, hg₂, fill_sense,
        flip_of_ne _ _ hne.symm, flip_sense_self, hg₁, fill_sense]
      simp
    · rw [Graph.setHead, Function.update_self]
  · intro p hp₀ hp₁
    have hpb₀ : p ≠ b0 := fun heq => hp₀ (heq ▸ hfirst.last)
    have hpb₁ : p ≠ b1 := fun heq => hp₁ (heq ▸ hsecond.last)
    rw [setHead_of_ne _ _ _ hpb₁, flip_of_ne _ _ hpb₁, hg₂, fill_of_not_mem,
      flip_of_ne _ _ hpb₁, flip_of_ne _ _ hpb₀, hg₁, fill_of_not_mem]
    · exact fun side hmem => hp₀ (hfirst.holes_mem hmem)
    · intro side hmem
      have hlast := hsecond.last_mem false
      rw [← List.mem_singleton.mp hmem] at hlast
      exact hp₁ hlast

theorem genOr_apply :
    ∃ g', genOr b0 b1 h = some ((), ⟨g', h.next⟩) ∧
      Joined h.graph g' false b0 b1 tails₀ tails₁ ∧
      ∀ p, p ∉ nodes₀ → p ∉ nodes₁ → g' p = h.graph p := by
  have hne : b1 ≠ b0 := by
    rintro rfl
    exact hdisjoint b1 hfirst.last hsecond.last
  obtain ⟨g₁, hg₁⟩ : ∃ g₁, g₁ = fill (h.graph.flip b0)
    (h.graph.holes b0 tails₀ false) (some (h.graph b1).head) := ⟨_, rfl⟩
  obtain ⟨g₂, hg₂⟩ : ∃ g₂, g₂ = fill (g₁.flip b0)
    [(h.graph.holes b1 tails₁ true).getLast (List.cons_ne_nil _ _)] (some b0) :=
    ⟨_, rfl⟩
  have hfill : backpatch b0 (h.graph b1).head ⟨h.graph.flip b0, h.next⟩ =
      some ((), ⟨g₁, h.next⟩) := by
    rw [hg₁]
    refine hfirst.backpatch_apply hbound₀ le_rfl false ?_ ?_ _
    · exact (hfirst.linked false).congr fun hole _ => edge_flip ..
    · refine hfirst.holes_sense false ?_ fun p _ hp => by rw [flip_of_ne _ _ hp]
      rw [flip_sense_self]
      simp
  have hmerge : merge b1 b0 ⟨g₁.flip b0, h.next⟩ = some ((), ⟨g₂, h.next⟩) := by
    rw [hg₂]
    refine hsecond.merge_apply hbound₁ true ?_ ?_ b0
    · refine hsecond.linked_fill hfirst hdisjoint true false
        (some (h.graph b1).head) fun p side => ?_
      rw [edge_flip, hg₁, edge_fill, edge_fill, edge_flip]
    · have hsense : ∀ p ∈ nodes₁, (g₁.flip b0 p).sense = (h.graph p).sense := by
        intro p hp
        have hpne : p ≠ b0 := by
          rintro rfl
          exact hdisjoint p hfirst.last hp
        rw [flip_of_ne _ _ hpne, hg₁, fill_sense, flip_of_ne _ _ hpne]
      refine hsecond.holes_sense true ?_ fun p hp _ => hsense p hp
      rw [hsense b1 hsecond.last]
      simp
  refine ⟨g₂.setHead b1 (h.graph b0).head, ?_, ?_, ?_⟩
  · simp only [genOr, Gen.bind_apply, getBlock_apply, Option.bind_some,
      flipSense_apply, flip_head, hfill, hmerge]
    rw [hg₂, fill_head, flip_head, hg₁, fill_head, flip_head]
    rfl
  · refine ⟨?_, ?_, ?_, ?_, ?_⟩
    · intro p test htest
      rw [hg₂, hg₁]
      exact ((((htest.flip b0).fill _ _).flip b0).fill _ _).setHead b1 _
    · intro p side
      rw [edge_setHead, hg₂, edge_fill, edge_flip, hg₁, edge_fill, edge_flip]
      exact swap_holes hfirst hsecond hdisjoint
    · intro p hp
      rw [setHead_sense, hg₂, fill_sense, flip_of_ne _ _ hp, hg₁, fill_sense,
        flip_of_ne _ _ hp]
    · rw [setHead_sense, hg₂, fill_sense, flip_sense_self, hg₁, fill_sense,
        flip_sense_self]
      simp
    · rw [Graph.setHead, Function.update_self]
  · intro p hp₀ hp₁
    have hpb₀ : p ≠ b0 := fun heq => hp₀ (heq ▸ hfirst.last)
    have hpb₁ : p ≠ b1 := fun heq => hp₁ (heq ▸ hsecond.last)
    rw [setHead_of_ne _ _ _ hpb₁, hg₂, fill_of_not_mem, flip_of_ne _ _ hpb₀, hg₁,
      fill_of_not_mem, flip_of_ne _ _ hpb₀]
    · exact fun side hmem => hp₀ (hfirst.holes_mem hmem)
    · intro side hmem
      have hlast := hsecond.last_mem true
      rw [← List.mem_singleton.mp hmem] at hlast
      exact hp₁ hlast

end Operations

end Bpf
end StockFeed
