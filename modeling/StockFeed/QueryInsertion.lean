import StockFeed.RecordStep

/-!
# Inserted calls of allPriceOK

`allPriceOK` trims windows and latches `g_ready`, so a call is not without
effect on the state.  A second call in a row is: it gives the same answer and
changes nothing.  Since the processing of a tracked record starts with a call of
its own, a call inserted before it is absorbed by that one.

Two runs are compared, one with inserted calls and one without.  At every point
between two records the state of the first is that of the second, or that state
after one call.  Both have the same counters, loop ids and trace.
-/

namespace StockFeed

open StateAction

/-! ## A second call in a row -/

theorem sizeInt_drop
    {prices : List Int32} {n size : ℕ} (hn : n ≤ prices.length)
    (hsize : sizeInt prices - n = size) (hlt : size < 2 ^ 31) :
    sizeInt (prices.drop n) = size := by
  have hlength : ((prices.drop n).length : ℤ) = prices.length - n := by
    rw [List.length_drop, Nat.cast_sub hn]
  unfold sizeInt at *
  rw [hlength, ← Int.bmod_sub_bmod, hsize]
  exact Int.bmod_eq_of_le (by omega) (by omega)

theorem trim_trim
    {cfg : Config} {prices : List Int32}
    (hsize : (cfg.priceListSize : ℤ) ≤ sizeInt prices) :
    trim cfg (trim cfg prices) = trim cfg prices := by
  have hlength := sizeInt_le_length prices
  have htrimmed : sizeInt (trim cfg prices) = cfg.priceListSize :=
    sizeInt_drop (by omega) (by omega) cfg.priceListSize_lt
  rw [trim, htrimmed, sub_self, Int.toNat_zero, List.drop_zero]

theorem Server.g_priceMap_eq_of_deque
    {s s' : Server} (hkeys : s'.g_priceMap.keys = s.g_priceMap.keys)
    (hdeque : ∀ id, s'.deque id = s.deque id) :
    s'.g_priceMap = s.g_priceMap := by
  apply OrderedMap.ext_find?
  intro id
  by_cases hid : id ∈ s.g_priceMap.keys
  · rw [Server.find?_eq_deque hid, Server.find?_eq_deque (hkeys ▸ hid),
      hdeque]
  · have hnone : ∀ t : Server, id ∉ t.g_priceMap.keys →
        t.g_priceMap.find? id = none := by
      intro t ht
      rwa [← OrderedMap.find?_isSome_iff, Option.not_isSome_iff_eq_none] at ht
    rw [hnone s hid, hnone s' (hkeys ▸ hid)]

/-- A call which changes no deque and no flag changes nothing. -/
theorem Query.eq_self
    {cfg : Config} {s s' : Server} {ok : Bool} (hquery : Query cfg s ok s')
    (hdeque : ∀ id, s'.deque id = s.deque id) (hready : s.g_ready = ok) :
    s' = s := by
  have hmap := Server.g_priceMap_eq_of_deque hquery.keys hdeque
  rw [hquery.frame, hmap, ← hready]

/-- The first short deque stays the first one, and those before it have been
trimmed. -/
theorem Query.again
    {cfg : Config} {s t : Server} {ok : Bool} (hquery : Query cfg s ok t) :
    allPriceOK cfg t = .ok ok t := by
  obtain ⟨ok', t', hagain⟩ := exists_query cfg t
  have hready : t.g_ready = ok := by
    rw [hquery.frame]
  cases ok with
  | true =>
      have hlatched := hagain.latched hready
      have hsame := hagain.eq_self (hagain.deque_latched hready)
        (hready.trans hlatched.1.symm)
      rw [hagain.run, hsame, hlatched.1]
  | false =>
      obtain ⟨id, hid, hshort, hfront, hback⟩ := hquery.stopped rfl
      have hdeque := hback id le_rfl
      rw [← hquery.keys] at hid
      have hstops : ok' = false := by
        cases ok' with
        | false => rfl
        | true =>
            have hpassed := (hagain.passed hready rfl id hid).1
            rw [hdeque] at hpassed
            exact absurd hshort (not_lt.mpr hpassed)
      subst hstops
      obtain ⟨stop, _, _, hbefore, hafter⟩ := hagain.stopped rfl
      have hle : stop ≤ id := by
        by_contra hlt
        have hpassed := (hbefore id hid (not_le.mp hlt)).1
        rw [hdeque] at hpassed
        exact absurd hshort (not_lt.mpr hpassed)
      have hsame : ∀ other, t'.deque other = t.deque other := by
        intro other
        rcases hagain.kept other with heq | ⟨_, heq⟩
        · exact heq
        · rcases lt_or_ge other stop with hlt | hge
          · by_cases hother : other ∈ s.g_priceMap.keys
            · obtain ⟨hlong, htrimmed⟩ := hfront other hother (hlt.trans_le hle)
              rw [heq, htrimmed, trim_trim hlong]
            · have hmissing : other ∉ t.g_priceMap.keys := hquery.keys ▸ hother
              rw [heq, Server.deque_eq_nil_of_notMem hmissing]
              exact List.drop_nil
          · exact hafter other hge
      rw [hagain.run, hagain.eq_self hsame hready]

/-! ## Runs with inserted calls -/

/-- What is compared after each record. -/
structure Observation where
  g_current_stocks : ℕ
  g_last_loop : Int32
  g_last_done_loop : Int32
  trace : List Action

def Server.observation (s : Server) : Observation :=
  ⟨s.g_current_stocks, s.g_last_loop, s.g_last_done_loop, s.trace⟩

/-- A payload with numbers of calls: before its loop id is looked at, before
each of its records, and after the last one. -/
structure QueriedPayload where
  loop_id : Int32
  before : ℕ
  records : List (ℕ × Stock)
  after : ℕ

namespace QueriedPayload

def payload (p : QueriedPayload) : Payload :=
  ⟨p.loop_id, p.records.map Prod.snd⟩

def withoutQueries (p : QueriedPayload) : QueriedPayload :=
  ⟨p.loop_id, 0, p.records.map fun record => (0, record.2), 0⟩

end QueriedPayload

def queries (cfg : Config) : ℕ → ServerM Unit
  | 0 => pure ()
  | n + 1 => do
      let _ ← allPriceOK cfg
      queries cfg n

/-- The record loop; the result is what is observed after each record. -/
def queriedRecords (cfg : Config) (loop_id : Int32) :
    List (ℕ × Stock) → ServerM (List Observation)
  | [] => return []
  | (n, st) :: rest => do
      queries cfg n
      processRecord cfg loop_id st
      let seen := (← get).observation
      return seen :: (← queriedRecords cfg loop_id rest)

def queriedPayload (cfg : Config) (p : QueriedPayload) :
    ServerM (List Observation) := do
  queries cfg p.before
  let s ← get
  if s.g_last_done_loop = p.loop_id then
    queries cfg p.after
    return []
  if p.loop_id ≠ s.g_last_loop then
    set { s with g_last_loop := p.loop_id }
  let seen ← queriedRecords cfg p.loop_id p.records
  queries cfg p.after
  return seen

def queriedRun (cfg : Config) :
    List QueriedPayload → ServerM (List Observation)
  | [] => return []
  | p :: rest => do
      let seen ← queriedPayload cfg p
      return seen ++ (← queriedRun cfg rest)

/-! ## The simulation -/

/-- The state of the run without insertions, or that state after a call. -/
inductive Asked (cfg : Config) (s : Server) : Server → Prop
  | same : Asked cfg s s
  | query {ok : Bool} {t : Server} (hquery : Query cfg s ok t) : Asked cfg s t

theorem Asked.observation_eq
    {cfg : Config} {s t : Server} (hasked : Asked cfg s t) :
    t.observation = s.observation := by
  cases hasked with
  | same => rfl
  | query hquery => rw [hquery.frame]; rfl

theorem allPriceOK_asked
    {cfg : Config} {s t : Server} (hasked : Asked cfg s t) :
    ∃ ok t', Query cfg s ok t' ∧ allPriceOK cfg t = .ok ok t' := by
  cases hasked with
  | same =>
      obtain ⟨ok, t', hquery⟩ := exists_query cfg s
      exact ⟨ok, t', hquery, hquery.run⟩
  | query hquery => exact ⟨_, _, hquery, hquery.again⟩

theorem queries_asked
    {cfg : Config} {s t : Server} (hasked : Asked cfg s t) (n : ℕ) :
    ∃ t', queries cfg n t = .ok () t' ∧ Asked cfg s t' := by
  induction n generalizing t with
  | zero => exact ⟨t, rfl, hasked⟩
  | succ n ih =>
      obtain ⟨ok, t', hquery, hrun⟩ := allPriceOK_asked hasked
      obtain ⟨t'', hmore, hasked'⟩ := ih (.query hquery)
      refine ⟨t'', ?_, hasked'⟩
      rw [queries, bind_apply_of_ok hrun, hmore]

theorem Query.of_run
    {cfg : Config} {s t : Server} {ok : Bool}
    (hrun : allPriceOK cfg s = .ok ok t) : Query cfg s ok t := by
  obtain ⟨ok', t', hquery⟩ := exists_query cfg s
  have hsame := hquery.run
  rw [hrun, EStateM.Result.ok.injEq] at hsame
  rw [hsame.1, hsame.2]
  exact hquery

theorem Query.withLastLoop
    {cfg : Config} {s t : Server} {ok : Bool} (hquery : Query cfg s ok t)
    (loop_id : Int32) :
    Query cfg { s with g_last_loop := loop_id } ok
      { t with g_last_loop := loop_id } := by
  have hrun := hquery.run
  apply Query.of_run
  unfold allPriceOK at hrun ⊢
  rw [bind_apply_of_ok (get_apply _)] at hrun ⊢
  by_cases hready : s.g_ready = true
  · rw [if_pos hready, pure_apply, EStateM.Result.ok.injEq] at hrun
    rw [if_pos hready, pure_apply, hrun.1, hrun.2]
  · rw [if_neg hready] at hrun
    rw [if_neg hready]
    simp only at hrun ⊢
    revert hrun
    cases hvisit : s.g_priceMap.visit (trimOrStop cfg) with
    | none => exact fun hrun => by cases hrun
    | some result =>
        obtain ⟨data, finished⟩ := result
        cases finished with
        | true =>
            intro hrun
            cases hrun
            rfl
        | false =>
            intro hrun
            cases hrun
            rfl

theorem Asked.withLastLoop
    {cfg : Config} {s t : Server} (hasked : Asked cfg s t) (loop_id : Int32) :
    Asked cfg { s with g_last_loop := loop_id }
      { t with g_last_loop := loop_id } := by
  cases hasked with
  | same => exact .same
  | query hquery => exact .query (hquery.withLastLoop loop_id)

/-- A tracked record starts with a call, after which both runs agree. -/
theorem processRecord_asked
    {cfg : Config} {s t s' : Server} (hasked : Asked cfg s t)
    (loop_id : Int32) (st : Stock)
    (hrun : processRecord cfg loop_id st s = .ok () s') :
    ∃ t', processRecord cfg loop_id st t = .ok () t' ∧
      Asked cfg s' t' := by
  cases hasked with
  | same => exact ⟨s', hrun, .same⟩
  | @query ok t hquery =>
      have htracked : (t.g_priceMap.find? st.id_).isSome =
          (s.g_priceMap.find? st.id_).isSome := by
        rw [Bool.eq_iff_iff, OrderedMap.find?_isSome_iff,
          OrderedMap.find?_isSome_iff, hquery.keys]
      have hstore : storeRecord cfg loop_id st t =
          storeRecord cfg loop_id st s := by
        rw [storeRecord, bind_apply_of_ok hquery.again,
          bind_apply_of_ok hquery.run]
      unfold processRecord at hrun ⊢
      rw [bind_apply_of_ok (get_apply _)] at hrun ⊢
      rw [htracked]
      cases hid : (s.g_priceMap.find? st.id_).isSome with
      | false =>
          simp only [hid, Bool.false_eq_true, if_false, pure_apply,
            EStateM.Result.ok.injEq, true_and] at hrun ⊢
          exact ⟨t, rfl, hrun ▸ .query hquery⟩
      | true =>
          simp only [hid, if_true] at hrun ⊢
          refine ⟨s', ?_, .same⟩
          rw [bind_apply, hstore, ← bind_apply]
          exact hrun

/-! ## Both runs -/

theorem queriedRecords_cons
    {cfg : Config} {loop_id : Int32} {n : ℕ} {st : Stock}
    {rest : List (ℕ × Stock)} {s s₁ s₂ s₃ : Server} {seen : List Observation}
    (hqueries : queries cfg n s = .ok () s₁)
    (hrecord : processRecord cfg loop_id st s₁ = .ok () s₂)
    (hrest : queriedRecords cfg loop_id rest s₂ = .ok seen s₃) :
    queriedRecords cfg loop_id ((n, st) :: rest) s =
      .ok (s₂.observation :: seen) s₃ := by
  rw [queriedRecords, bind_apply_of_ok hqueries, bind_apply_of_ok hrecord,
    bind_apply_of_ok (get_apply _), bind_apply_of_ok hrest]
  rfl

theorem queriedPayload_done
    {cfg : Config} {p : QueriedPayload} {s s₁ s₂ : Server}
    (hbefore : queries cfg p.before s = .ok () s₁)
    (hdone : s₁.g_last_done_loop = p.loop_id)
    (hafter : queries cfg p.after s₁ = .ok () s₂) :
    queriedPayload cfg p s = .ok [] s₂ := by
  rw [queriedPayload, bind_apply_of_ok hbefore,
    bind_apply_of_ok (get_apply _), if_pos hdone, bind_apply_of_ok hafter]
  rfl

theorem queriedPayload_records
    {cfg : Config} {p : QueriedPayload} {s s₁ s₂ s₃ : Server}
    {seen : List Observation}
    (hbefore : queries cfg p.before s = .ok () s₁)
    (hdone : s₁.g_last_done_loop ≠ p.loop_id)
    (hrecords : queriedRecords cfg p.loop_id p.records
      { s₁ with g_last_loop := p.loop_id } = .ok seen s₂)
    (hafter : queries cfg p.after s₂ = .ok () s₃) :
    queriedPayload cfg p s = .ok seen s₃ := by
  rw [queriedPayload, bind_apply_of_ok hbefore,
    bind_apply_of_ok (get_apply _), if_neg hdone]
  by_cases hlast : p.loop_id = s₁.g_last_loop
  · rw [if_neg (not_not.mpr hlast)]
    rw [hlast] at hrecords ⊢
    change (queriedRecords cfg _ p.records >>= _) s₁ = _
    rw [bind_apply_of_ok hrecords, bind_apply_of_ok hafter]
    rfl
  · rw [if_pos hlast]
    change (queriedRecords cfg _ p.records >>= _)
      { s₁ with g_last_loop := p.loop_id } = _
    rw [bind_apply_of_ok hrecords, bind_apply_of_ok hafter]
    rfl

theorem queriedRecords_asked
    {cfg : Config} {s t : Server} (hsound : s.Sound cfg)
    (hasked : Asked cfg s t) (loop_id : Int32) (records : List (ℕ × Stock)) :
    ∃ seen s' t', queriedRecords cfg loop_id
        (records.map fun record => (0, record.2)) s = .ok seen s' ∧
      forM (records.map Prod.snd) (processRecord cfg loop_id) s =
        .ok () s' ∧
      queriedRecords cfg loop_id records t = .ok seen t' ∧
      s'.Sound cfg ∧ Asked cfg s' t' := by
  induction records generalizing s t with
  | nil => exact ⟨[], s, t, rfl, rfl, rfl, hsound, hasked⟩
  | cons record rest ih =>
      obtain ⟨n, st⟩ := record
      have hrecord := processRecord_ok hsound loop_id st
      have hsound' := (recordStep_recordState hsound loop_id st).sound hsound
      obtain ⟨t₁, hqueries, hasked₁⟩ := queries_asked hasked n
      obtain ⟨t₂, hrecord₂, hasked₂⟩ :=
        processRecord_asked hasked₁ loop_id st hrecord
      obtain ⟨seen, s', t', hplain, hforM, hrest, hsoundEnd, haskedEnd⟩ :=
        ih hsound' hasked₂
      have hwith := queriedRecords_cons hqueries hrecord₂ hrest
      rw [hasked₂.observation_eq] at hwith
      refine ⟨_, s', t', queriedRecords_cons rfl hrecord hplain, ?_, hwith,
        hsoundEnd, haskedEnd⟩
      rw [List.map_cons, List.forM_cons, bind_apply_of_ok hrecord, hforM]

theorem queriedPayload_asked
    {cfg : Config} {s t : Server} (hsound : s.Sound cfg)
    (hasked : Asked cfg s t) (p : QueriedPayload) :
    ∃ seen s' t', queriedPayload cfg p.withoutQueries s = .ok seen s' ∧
      processPayload cfg p.payload s = .ok () s' ∧
      queriedPayload cfg p t = .ok seen t' ∧
      s'.Sound cfg ∧ Asked cfg s' t' := by
  obtain ⟨t₁, hbefore, hasked₁⟩ := queries_asked hasked p.before
  have hlastDone : t₁.g_last_done_loop = s.g_last_done_loop :=
    congrArg Observation.g_last_done_loop hasked₁.observation_eq
  by_cases hdone : s.g_last_done_loop = p.loop_id
  · obtain ⟨t₂, hafter, hasked₂⟩ := queries_asked hasked₁ p.after
    refine ⟨[], s, t₂, queriedPayload_done rfl hdone rfl, ?_,
      queriedPayload_done hbefore (hlastDone.trans hdone) hafter, hsound,
      hasked₂⟩
    rw [processPayload, unlessDone_apply]
    exact if_pos hdone
  · obtain ⟨seen, s₂, t₂, hplain, hforM, hrecords, hsound₂, hasked₂⟩ :=
      queriedRecords_asked (hsound.withLastLoop p.loop_id)
        (hasked₁.withLastLoop p.loop_id) p.loop_id p.records
    obtain ⟨t₃, hafter, hasked₃⟩ := queries_asked hasked₂ p.after
    refine ⟨seen, s₂, t₃, queriedPayload_records rfl hdone hplain rfl, ?_,
      queriedPayload_records hbefore (hlastDone.trans_ne hdone) hrecords hafter,
      hsound₂, hasked₃⟩
    rw [processPayload, unlessDone_apply]
    exact (if_neg hdone).trans hforM

theorem queriedRun_asked
    {cfg : Config} {s t : Server} (hsound : s.Sound cfg)
    (hasked : Asked cfg s t) (payloads : List QueriedPayload) :
    ∃ seen s' t',
      queriedRun cfg (payloads.map QueriedPayload.withoutQueries) s =
        .ok seen s' ∧
      forM (payloads.map QueriedPayload.payload) (processPayload cfg) s =
        .ok () s' ∧
      queriedRun cfg payloads t = .ok seen t' ∧ Asked cfg s' t' := by
  induction payloads generalizing s t with
  | nil => exact ⟨[], s, t, rfl, rfl, rfl, hasked⟩
  | cons p rest ih =>
      obtain ⟨seen, s₁, t₁, hplain, hpayload, hqueried, hsound₁, hasked₁⟩ :=
        queriedPayload_asked hsound hasked p
      obtain ⟨later, s', t', hplain', hforM, hqueried', haskedEnd⟩ :=
        ih hsound₁ hasked₁
      refine ⟨seen ++ later, s', t', ?_, ?_, ?_, haskedEnd⟩
      · rw [List.map_cons, queriedRun, bind_apply_of_ok hplain,
          bind_apply_of_ok hplain']
        rfl
      · rw [List.map_cons, List.forM_cons, bind_apply_of_ok hpayload, hforM]
      · rw [queriedRun, bind_apply_of_ok hqueried, bind_apply_of_ok hqueried']
        rfl

/-- However many calls of `allPriceOK` are inserted before, between and after
the records, the counters, loop ids and trace after each record are those of
the run without insertions, and so are the calls of `coefficient`. -/
theorem inserted_queries_unobserved
    (cfg : Config) (payloads : List QueriedPayload) :
    ∃ seen s t,
      queriedRun cfg (payloads.map QueriedPayload.withoutQueries)
        (Server.initial cfg) = .ok seen s ∧
      runPayloads cfg (payloads.map QueriedPayload.payload) = .ok () s ∧
      queriedRun cfg payloads (Server.initial cfg) = .ok seen t ∧
      t.observation = s.observation ∧
      coefficientCalls t.trace = coefficientCalls s.trace := by
  obtain ⟨seen, s, t, hplain, hrun, hqueried, hasked⟩ :=
    queriedRun_asked (Server.initial_sound cfg) .same payloads
  have hsame := hasked.observation_eq
  exact ⟨seen, s, t, hplain, hrun, hqueried, hsame,
    congrArg (fun seen => coefficientCalls seen.trace) hsame⟩

end StockFeed
