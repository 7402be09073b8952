import Gufi.ExternalAttach

/-!
# External databases are detached in balance

Attaching for one directory, what is done meanwhile, and detaching form a bracket. A bracket takes
names from the counter and gives them back, and drops the views it created, whatever SQLite refuses
in between. While it detaches, a view that it has still to drop may select from a database that is
gone already.
-/

namespace Gufi.ExternalAttach

open NameCounter Stdio

theorem attachName_injective : Function.Injective attachName := by
  intro m n h
  have hnumeral : numeral 10 m = numeral 10 n := List.append_cancel_left h
  have hread := congrArg readDecimal hnumeral
  rw [readDecimal_numeral, readDecimal_numeral] at hread
  simpa using hread

variable (ident : Bytes → Bytes)

section Model

/-- How a connection is between two directories. -/
structure Conn.Good (c : Conn) : Prop where
  nodup : c.names.held.Nodup
  free : c.names.Free attachName
  refs : ∀ v ∈ c.views, v.refs ⊆ c.names.held
  unioncmd : c.unioncmd = []

/-- A detach step is going on, and the view is one that it has still to drop. -/
def StillToDrop (done todo : List Event) (view : Bytes) : Prop :=
  (∃ e ∈ done.getLast?, e.phase = .detach) ∧
    ∃ e ∈ todo.takeWhile (·.phase = .detach), ∃ v, e.action = .dropView v ∧ ident v = view

/-- No two databases have one name, no name that is still to be given out is in use, and the views
select from attached databases. -/
structure Moment (done todo : List Event) (c : Conn) : Prop where
  nodup : c.names.held.Nodup
  free : c.names.Free attachName
  refs : ∀ v ∈ c.views, v.refs ⊆ c.names.held ∨ StillToDrop ident done todo v.name

def Holds (events : List Event) (c : Conn) : Prop :=
  ∀ done todo, events = done ++ todo → Moment ident done todo (run ident done c)

/-- The names are as they were, and only views without external databases have been added. -/
structure Returns (events : List Event) (c : Conn) : Prop where
  holds : Holds ident events c
  names : (run ident events c).names = c.names
  views : ∀ v ∈ (run ident events c).views, v ∈ c.views ∨ v.refs = []
  unioncmd : (run ident events c).unioncmd = []

/-- However the calls end, they lead back to the names they began with. -/
def Balanced (calls : List Call) : Prop :=
  ∀ ⦃events : List Event⦄ ⦃c : Conn⦄, events.map (·.toCall) = calls → c.Good →
    Returns ident events c

/-- The text of the query for the files of a view is not cut. -/
def Fits (dirInode : Bytes) (user : ExternalView) : Prop :=
  (externalCreateQuery (text "filename") .userDb (some (dirInode, user.basename))).length ≤ MAXSQL

end Model

section Runs

variable {ident} {events done todo rest : List Event} {c base : Conn}

@[simp] theorem run_nil (c : Conn) : run ident [] c = c := rfl

@[simp] theorem run_cons (e : Event) (events : List Event) (c : Conn) :
    run ident (e :: events) c = run ident events (step ident e c) := rfl

theorem run_append (done todo : List Event) (c : Conn) :
    run ident (done ++ todo) c = run ident todo (run ident done c) :=
  List.foldl_append

theorem Conn.Good.moment (hc : c.Good) : Moment ident done todo c :=
  ⟨hc.nodup, hc.free, fun v hv => .inl (hc.refs v hv)⟩

theorem Returns.good (h : Returns ident events c) (hc : c.Good) : (run ident events c).Good := by
  refine ⟨h.names ▸ hc.nodup, h.names ▸ hc.free, fun v hv => ?_, h.unioncmd⟩
  rw [h.names]
  rcases h.views v hv with hold | hnil
  · exact hc.refs v hold
  · rw [hnil]
    exact List.nil_subset _

theorem Moment.later (h : Moment ident done todo c) (rest : List Event) :
    Moment ident done (todo ++ rest) c := by
  refine ⟨h.nodup, h.free, fun v hv => (h.refs v hv).imp_right ?_⟩
  rintro ⟨hlast, e, he, hdrop⟩
  refine ⟨hlast, e, ?_, hdrop⟩
  rw [List.takeWhile_append]
  split_ifs
  · exact List.mem_append_left _ (List.takeWhile_prefix _ |>.subset he)
  · exact he

theorem Moment.earlier (h : Moment ident done todo c) (hne : done ≠ []) (first : List Event) :
    Moment ident (first ++ done) todo c := by
  refine ⟨h.nodup, h.free, fun v hv => (h.refs v hv).imp_right ?_⟩
  rintro ⟨⟨e, he, hphase⟩, hdrop⟩
  refine ⟨⟨e, ?_, hphase⟩, hdrop⟩
  rwa [List.getLast?_append_of_ne_nil _ hne]

theorem Holds.append (h : Holds ident events c) (hrest : Holds ident rest (run ident events c)) :
    Holds ident (events ++ rest) c := by
  intro done todo hsplit
  rcases List.append_eq_append_iff.mp hsplit with ⟨mid, rfl, hrest'⟩ | ⟨mid, hevents, rfl⟩
  · by_cases hmid : mid = []
    · obtain rfl := hmid
      rw [List.append_nil]
      exact (h events [] (List.append_nil _).symm).later todo
    · rw [run_append]
      exact (hrest mid todo hrest').earlier hmid events
  · exact (h done mid hevents).later rest

theorem Balanced.append {calls rest : List Call} (h : Balanced ident calls)
    (hrest : Balanced ident rest) : Balanced ident (calls ++ rest) := by
  intro events c hevents hc
  obtain ⟨first, second, rfl, hfirst, hsecond⟩ := List.map_eq_append_iff.mp hevents
  have hr := h hfirst hc
  have hr' := hrest hsecond (hr.good hc)
  refine ⟨hr.holds.append hr'.holds, ?_, ?_, ?_⟩
  · rw [run_append, hr'.names, hr.names]
  · intro v hv
    rw [run_append] at hv
    rcases hr'.views v hv with hold | hnil
    · exact hr.views v hold
    · exact .inr hnil
  · rw [run_append]
    exact hr'.unioncmd

theorem Balanced.nil : Balanced ident [] := by
  intro events c hevents hc
  obtain rfl := List.map_eq_nil_iff.mp hevents
  refine ⟨fun done todo hsplit => ?_, rfl, fun v hv => .inl hv, hc.unioncmd⟩
  obtain ⟨rfl, rfl⟩ := List.append_eq_nil_iff.mp hsplit.symm
  exact hc.moment

theorem Balanced.flatten {passes : List (List Call)} (h : ∀ pass ∈ passes, Balanced ident pass) :
    Balanced ident passes.flatten := by
  induction passes with
  | nil => exact Balanced.nil
  | cons pass passes ih =>
      rw [List.flatten_cons]
      exact (h pass List.mem_cons_self).append (ih fun p hp => h p (List.mem_cons_of_mem _ hp))

theorem Balanced.processQueries (phase : Phase) : Balanced ident [⟨phase, .processQueries⟩] := by
  intro events c hevents hc
  obtain ⟨e, rest, rfl, he, hrest⟩ := List.map_eq_cons_iff.mp hevents
  obtain rfl := List.map_eq_nil_iff.mp hrest
  have haction : e.action = .processQueries := congrArg Call.action he
  have hrun : run ident [e] c = c := by
    obtain ⟨names, views, unioncmd⟩ := c
    obtain rfl : unioncmd = [] := hc.unioncmd
    simp [step, haction]
  refine ⟨fun done todo hsplit => ?_, by rw [hrun], fun v hv => .inl (hrun ▸ hv),
    by rw [hrun]; exact hc.unioncmd⟩
  rcases List.cons_eq_append_iff.mp hsplit with ⟨rfl, rfl⟩ | ⟨done', rfl, hnil⟩
  · exact hc.moment
  · obtain ⟨rfl, rfl⟩ := List.append_eq_nil_iff.mp hnil.symm
    rw [hrun]
    exact hc.moment

end Runs

section Brackets

def isAttach (call : Call) : Bool := call.action matches .attach _

def isDetach (call : Call) : Bool := call.action matches .detach

/-- What is done before the queries. The views that select from external databases are named. -/
def Opens (names : List Bytes) : Action → Prop
  | .createView view => ident view ∈ names
  | .attach _ | .createViewIfNotExists _ | .createViews _ => True
  | _ => False

def Closes : Action → Prop
  | .dropView _ | .dropViews _ | .detach => True
  | _ => False

variable {ident} {events todo : List Event} {e : Event} {c base : Conn} {names : List Bytes}

structure Opening (names : List Bytes) (base c : Conn) : Prop where
  nodup : c.names.held.Nodup
  free : c.names.Free attachName
  above : base.names.Above attachName c.names
  refs : ∀ v ∈ c.views, v.refs ⊆ c.names.held
  unioncmd : c.unioncmd ⊆ c.names.held
  views : ∀ v ∈ c.views, v ∈ base.views ∨ v.refs = [] ∨ v.name ∈ names

variable (ident) in
/-- The counter is as far ahead as there are databases to detach, and the views to be dropped are
still ahead too. -/
structure Closing (base c : Conn) (todo : List Event) : Prop where
  nodup : c.names.held.Nodup
  above : base.names.Above attachName c.names
  next : c.names.next = base.names.next + todo.countP fun e => isDetach e.toCall
  views : ∀ v ∈ c.views, v ∈ base.views ∨ v.refs = [] ∨
    ∃ e ∈ todo, ∃ name, e.action = .dropView name ∧ ident name = v.name
  unioncmd : c.unioncmd = []

theorem mem_createViews {names : List Bytes} {views : List View} {v : View}
    (h : v ∈ createViews ident names views) : v ∈ views ∨ v.refs = [] := by
  induction names generalizing views with
  | nil => exact .inl h
  | cons name names ih =>
      rw [createViews] at h
      split_ifs at h
      · exact .inl h
      · rcases ih h with hmem | hnil
        · rcases List.mem_append.mp hmem with hmem | hmem
          · exact .inl hmem
          · exact .inr (by rw [List.mem_singleton.mp hmem])
        · exact .inr hnil

theorem mem_dropViews {names : List Bytes} {views : List View} {v : View}
    (h : v ∈ dropViews ident names views) : v ∈ views := by
  induction names generalizing views with
  | nil => exact h
  | cons name names ih =>
      rw [dropViews] at h
      split_ifs at h
      · exact List.mem_of_mem_filter (ih h)
      · exact h

theorem Opening.refl (hc : c.Good) (names : List Bytes) : Opening names c c where
  nodup := hc.nodup
  free := hc.free
  above := .refl _
  refs := hc.refs
  unioncmd := by rw [hc.unioncmd]; exact List.nil_subset _
  views v hv := .inl hv

theorem Opening.moment (h : Opening names base c) {done todo : List Event} :
    Moment ident done todo c :=
  ⟨h.nodup, h.free, fun v hv => .inl (h.refs v hv)⟩

theorem Opening.unioncmd_nil (h : Opening names base c) :
    Opening names base { c with unioncmd := [] } :=
  ⟨h.nodup, h.free, h.above, h.refs, List.nil_subset _, h.views⟩

/-- A view is added that selects from attached databases only. -/
theorem Opening.addView (h : Opening names base c) {name : Bytes} {refs : List Bytes}
    (hrefs : refs ⊆ c.names.held) (hname : refs = [] ∨ name ∈ names) :
    Opening names base { c with views := c.views ++ [⟨name, refs⟩], unioncmd := [] } where
  nodup := h.nodup
  free := h.free
  above := h.above
  unioncmd := List.nil_subset _
  refs v hv := by
    rcases List.mem_append.mp hv with hv | hv
    · exact h.refs v hv
    · rw [List.mem_singleton.mp hv]
      exact hrefs
  views v hv := by
    rcases List.mem_append.mp hv with hv | hv
    · exact h.views v hv
    · rw [List.mem_singleton.mp hv]
      exact .inr hname

theorem Opening.attach (h : Opening names base c) (ok : Bool) :
    Opening names base
      { c with
        names := c.names.acquire attachName ok
        unioncmd := if ok ∧ attachName c.names.next ∉ c.names.held
          then c.unioncmd ++ [attachName c.names.next] else c.unioncmd } where
  nodup := Held.nodup_acquire ok h.nodup
  free := h.free.acquire attachName_injective ok
  above := h.above.acquire ok
  refs v hv := List.Subset.trans (h.refs v hv) (Held.subset_held_acquire ok)
  unioncmd := by
    dsimp only [Held.acquire]
    split_ifs
    · exact List.append_subset.mpr
        ⟨List.Subset.trans h.unioncmd (List.subset_append_left _ _),
          List.subset_append_right _ _⟩
    · exact h.unioncmd
  views := h.views

theorem Opening.step (h : Opening names base c) (hopens : Opens ident names e.action) :
    Opening names base (step ident e c) := by
  cases haction : e.action with
  | attach filename =>
      simp only [ExternalAttach.step, haction]
      exact h.attach e.ok
  | createView view =>
      rw [haction] at hopens
      simp only [ExternalAttach.step, haction]
      split_ifs
      · exact h.addView (List.Subset.trans (List.take_subset _ _) h.unioncmd) (.inr hopens)
      · exact h.unioncmd_nil
  | createViewIfNotExists view =>
      simp only [ExternalAttach.step, haction]
      split_ifs
      · exact h.unioncmd_nil
      · exact h.addView (List.nil_subset _) (.inl rfl)
  | createViews views =>
      simp only [ExternalAttach.step, haction]
      refine ⟨h.nodup, h.free, h.above, fun v hv => ?_, List.nil_subset _, fun v hv => ?_⟩
      · rcases mem_createViews hv with hold | hnil
        · exact h.refs v hold
        · rw [hnil]
          exact List.nil_subset _
      · rcases mem_createViews hv with hold | hnil
        · exact h.views v hold
        · exact .inr (.inl hnil)
  | processQueries | dropView _ | dropViews _ | detach =>
      rw [haction] at hopens
      exact hopens.elim

theorem next_step_of_opens (hopens : Opens ident names e.action) :
    (step ident e c).names.next = c.names.next + if isAttach e.toCall then 1 else 0 := by
  cases haction : e.action with
  | attach filename => simp [step, isAttach, haction]
  | createView view | createViewIfNotExists view =>
      simp only [step, isAttach, haction, Bool.false_eq_true, if_false]
      split_ifs <;> rfl
  | createViews views => simp [step, isAttach, haction]
  | processQueries | dropView _ | dropViews _ | detach =>
      rw [haction] at hopens
      exact hopens.elim

theorem Opening.run (h : Opening names base c) (hopens : ∀ e ∈ events, Opens ident names e.action) :
    Opening names base (run ident events c) ∧
      (ExternalAttach.run ident events c).names.next =
        c.names.next + events.countP fun e => isAttach e.toCall := by
  induction events generalizing c with
  | nil => exact ⟨h, rfl⟩
  | cons e events ih =>
      have he := hopens e List.mem_cons_self
      obtain ⟨hrun, hnext⟩ := ih (h.step he) fun e he => hopens e (List.mem_cons_of_mem _ he)
      refine ⟨hrun, ?_⟩
      rw [run_cons, hnext, next_step_of_opens he, List.countP_cons]
      omega

theorem Closing.step (hbase : base.names.Free attachName)
    (h : Closing ident base c (e :: todo)) (hcloses : Closes e.action) :
    Closing ident base (step ident e c) todo := by
  have hnext := h.next
  rw [List.countP_cons] at hnext
  have hviews : ∀ v ∈ c.views, (∀ name, e.action = .dropView name → ident name ≠ v.name) →
      v ∈ base.views ∨ v.refs = [] ∨
        ∃ e ∈ todo, ∃ name, e.action = .dropView name ∧ ident name = v.name := by
    intro v hv hne
    refine (h.views v hv).imp_right (Or.imp_right ?_)
    rintro ⟨e', he', name, hdrop, hname⟩
    rcases List.mem_cons.mp he' with rfl | he'
    · exact absurd hname (hne name hdrop)
    · exact ⟨e', he', name, hdrop, hname⟩
  cases haction : e.action with
  | dropView view =>
      have hother : isDetach e.toCall = false := by simp [isDetach, haction]
      rw [hother] at hnext
      simp only [ExternalAttach.step, haction]
      refine ⟨h.nodup, h.above, hnext, fun v hv => ?_, rfl⟩
      obtain ⟨hmem, hne⟩ := List.mem_filter.mp hv
      refine hviews v hmem fun name hname hident => ?_
      obtain rfl : view = name := Action.dropView.inj (haction.symm.trans hname)
      exact of_decide_eq_true hne hident.symm
  | dropViews views =>
      have hother : isDetach e.toCall = false := by simp [isDetach, haction]
      rw [hother] at hnext
      simp only [ExternalAttach.step, haction]
      refine ⟨h.nodup, h.above, hnext, fun v hv => ?_, rfl⟩
      exact hviews v (mem_dropViews hv) fun name hname => by simp [haction] at hname
  | detach =>
      have hdetach : isDetach e.toCall = true := by simp [isDetach, haction]
      rw [hdetach, if_pos rfl] at hnext
      simp only [ExternalAttach.step, haction]
      have hlt : base.names.next < c.names.next := by omega
      refine ⟨Held.nodup_release h.nodup, h.above.release hbase hlt, ?_, fun v hv => ?_, rfl⟩
      · rw [Held.next_release (by omega)]
        omega
      · exact hviews v hv fun name hname => by simp [haction] at hname
  | attach _ | createView _ | createViewIfNotExists _ | createViews _ | processQueries =>
      rw [haction] at hcloses
      exact hcloses.elim

theorem Closing.run (hbase : base.names.Free attachName)
    (hcloses : ∀ e ∈ events, Closes e.action) {done : List Event} (hsplit : events = done ++ todo)
    (h : Closing ident base c events) :
    Closing ident base (run ident done c) todo := by
  induction done generalizing c events with
  | nil =>
      obtain rfl : events = todo := hsplit
      exact h
  | cons e done ih =>
      obtain rfl := hsplit
      exact ih (fun e' he' => hcloses e' (List.mem_cons_of_mem _ he')) rfl
        (h.step hbase (hcloses e List.mem_cons_self))

/-- A view that selects from a database of the bracket is one of those still to be dropped. -/
theorem Closing.moment (h : Closing ident base c todo) (hbase : base.Good)
    (hphase : ∀ e ∈ todo, e.phase = .detach) {done : List Event}
    (hlast : ∃ e ∈ done.getLast?, e.phase = .detach) : Moment ident done todo c := by
  refine ⟨h.nodup, h.above.free attachName_injective hbase.free, fun v hv => ?_⟩
  rcases h.views v hv with hold | hnil | ⟨e, he, name, hdrop, hname⟩
  · exact .inl (List.Subset.trans (hbase.refs v hold) h.above.subset)
  · rw [hnil]
    exact .inl (List.nil_subset _)
  · have hall : todo.takeWhile (·.phase = .detach) = todo :=
      List.takeWhile_eq_self_iff.mpr fun e he => decide_eq_true (hphase e he)
    exact .inr ⟨hlast, e, hall.symm ▸ he, name, hdrop, hname⟩

/-- A list of calls that takes names and one that gives as many back, around one that is balanced
itself. -/
structure Bracket (ident : Bytes → Bytes) (opening closing : List Call) : Prop where
  opens : ∃ names, (∀ call ∈ opening, Opens ident names call.action) ∧
    ∀ name ∈ names, ∃ call ∈ closing, ∃ view, call.action = .dropView view ∧ ident view = name
  ends : ∃ call ∈ opening.getLast?, isAttach call = false
  phase : ∀ call ∈ closing, call.phase = .detach
  closes : ∀ call ∈ closing, Closes call.action
  count : closing.countP isDetach = opening.countP isAttach

theorem run_unioncmd_of_ends {opening : List Call} (hevents : events.map (·.toCall) = opening)
    (hends : ∃ call ∈ opening.getLast?, isAttach call = false) :
    (run ident events c).unioncmd = [] := by
  obtain ⟨call, hlast, hattach⟩ := hends
  obtain ⟨init, rfl⟩ := List.getLast?_eq_some_iff.mp hlast
  obtain ⟨first, last, rfl, -, hlast⟩ := List.map_eq_append_iff.mp hevents
  obtain ⟨e, rest, rfl, rfl, hrest⟩ := List.map_eq_cons_iff.mp hlast
  obtain rfl := List.map_eq_nil_iff.mp hrest
  rw [run_append, run_cons, run_nil]
  rw [isAttach] at hattach
  cases haction : e.action with
  | attach filename => simp [haction] at hattach
  | createView view | createViewIfNotExists view =>
      simp only [step, haction]
      split_ifs <;> rfl
  | createViews _ | processQueries | dropView _ | dropViews _ | detach => simp [step, haction]

theorem Opening.holds (hc : c.Good) (hopens : ∀ e ∈ events, Opens ident names e.action) :
    Holds ident events c := by
  rintro done todo rfl
  have hdone := (Opening.refl hc names).run
    fun e he => hopens e (List.mem_append_left todo he)
  exact hdone.1.moment

theorem Closing.holds (hbase : base.Good) (hc : c.Good) (hphase : ∀ e ∈ events, e.phase = .detach)
    (hcloses : ∀ e ∈ events, Closes e.action)
    (h : Closing ident base c events) : Holds ident events c := by
  rintro done todo rfl
  by_cases hdone : done = []
  · obtain rfl := hdone
    exact hc.moment
  · refine (h.run hbase.free hcloses rfl).moment hbase
      (fun e he => hphase e (List.mem_append_right _ he)) ?_
    obtain ⟨e, he⟩ := Option.isSome_iff_exists.mp (List.getLast?_isSome.mpr hdone)
    exact ⟨e, he, hphase e (List.mem_append_left _ (List.mem_of_getLast? he))⟩

theorem Bracket.good {opening closing : List Call} (h : Bracket ident opening closing)
    (hevents : events.map (·.toCall) = opening) (hc : c.Good) : (run ident events c).Good := by
  obtain ⟨names, hopens, -⟩ := h.opens
  have hopened := ((Opening.refl hc names).run fun e he =>
    hopens _ (hevents ▸ List.mem_map_of_mem he)).1
  exact ⟨hopened.nodup, hopened.free, hopened.refs, run_unioncmd_of_ends hevents h.ends⟩

theorem Balanced.bracket {opening body closing : List Call} (h : Bracket ident opening closing)
    (hbody : Balanced ident body) : Balanced ident (opening ++ body ++ closing) := by
  intro events c hevents hc
  obtain ⟨first, third, rfl, hfirst, hthird⟩ := List.map_eq_append_iff.mp hevents
  obtain ⟨first, second, rfl, hfirst, hsecond⟩ := List.map_eq_append_iff.mp hfirst
  obtain ⟨names, hopens, hdrops⟩ := h.opens
  have hopens' : ∀ e ∈ first, Opens ident names e.action := fun e he =>
    hopens _ (hfirst ▸ List.mem_map_of_mem he)
  obtain ⟨hopened, hnext⟩ := (Opening.refl hc names).run hopens'
  have hgood := h.good hfirst hc
  have hmid := hbody hsecond hgood
  -- the body keeps the names, so the closing calls begin where the opening ones ended
  have hclosing : Closing ident c (run ident second (run ident first c)) third := by
    refine ⟨hmid.names ▸ hopened.nodup, hmid.names ▸ hopened.above, ?_, fun v hv => ?_,
      hmid.unioncmd⟩
    · have hcount := h.count
      rw [← hfirst, ← hthird, List.countP_map, List.countP_map] at hcount
      rw [hmid.names, hnext]
      exact congrArg _ hcount.symm
    · rcases hmid.views v hv with hold | hnil
      · refine (hopened.views v hold).imp_right (Or.imp_right fun hname => ?_)
        obtain ⟨call, hcall, view, hdrop, hident⟩ := hdrops _ hname
        obtain ⟨e, he, rfl⟩ := List.mem_map.mp (hthird ▸ hcall)
        exact ⟨e, he, view, hdrop, hident⟩
      · exact .inr (.inl hnil)
  have hphase : ∀ e ∈ third, e.phase = .detach := fun e he =>
    h.phase _ (hthird ▸ List.mem_map_of_mem he)
  have hcloses : ∀ e ∈ third, Closes e.action := fun e he =>
    h.closes _ (hthird ▸ List.mem_map_of_mem he)
  have hclosed := hclosing.run hc.free hcloses (List.append_nil third).symm
  have hrun : run ident (first ++ second ++ third) c =
      run ident third (run ident second (run ident first c)) := by
    rw [run_append, run_append]
  have hinner : Holds ident (first ++ second) c := (Opening.holds hc hopens').append hmid.holds
  refine ⟨hinner.append ?_, ?_, fun v hv => ?_, ?_⟩
  · rw [run_append]
    exact Closing.holds hc (hmid.good hgood) hphase hcloses hclosing
  · rw [hrun]
    exact hclosed.above.eq_of_next hclosed.next
  · rw [hrun] at hv
    exact (hclosed.views v hv).imp_right fun hor => hor.resolve_right fun ⟨e, he, _⟩ =>
      absurd he List.not_mem_nil
  · rw [hrun]
    exact hclosed.unioncmd

end Brackets

section Directories

variable {ident} {setup : List ExternalView} {processXattrs : Bool} {db : Db}
variable {type : ExternalType} {extra : Option (Bytes × Bytes)} {view dirInode : Bytes}

/-- The query for the files is the longer one. -/
theorem externalRows_zero
    (h : (externalCreateQuery (text "filename") type extra).length ≤ MAXSQL) :
    externalRows db (text "0") type extra = externalRows db (text "filename") type extra := by
  have hfilename : (text "filename").length = 8 := by decide
  have hzero : (text "0").length = 1 := by decide
  have hshorter : (externalCreateQuery (text "0") type extra).length ≤ MAXSQL := by
    simp only [externalCreateQuery, List.length_append, hfilename, hzero] at h ⊢
    omega
  rw [externalRows, externalRows, if_pos hshorter, if_pos h]

theorem countP_externalConcatenate :
    (externalConcatenate db type extra view).countP (fun a => isAttach ⟨.attach, a⟩) =
      ((externalRows db (text "filename") type extra).getD []).length := by
  rw [externalConcatenate]
  cases externalRows db (text "filename") type extra with
  | none => rfl
  | some rows => simp [List.countP_map, Function.comp_def, isAttach]

theorem countP_externalConcatenateCleanup :
    (externalConcatenateCleanup db view type extra).countP (fun a => isDetach ⟨.detach, a⟩) =
      ((externalRows db (text "0") type extra).getD []).length := by
  rw [externalConcatenateCleanup]
  cases externalRows db (text "0") type extra with
  | none => rfl
  | some rows =>
      have hall : ∀ a ∈ rows.map fun _ => Action.detach, isDetach ⟨.detach, a⟩ := by
        simp [isDetach]
      rw [Option.getD_some, List.countP_cons, List.countP_eq_length.mpr hall, List.length_map]
      rfl

theorem opens_externalConcatenate {names : List Bytes} (h : ident view ∈ names) {a : Action}
    (ha : a ∈ externalConcatenate db type extra view) : Opens ident names a := by
  rw [externalConcatenate] at ha
  split at ha
  · exact absurd ha List.not_mem_nil
  · rcases List.mem_append.mp ha with ha | ha
    · obtain ⟨x, -, rfl⟩ := List.mem_map.mp ha
      trivial
    · obtain rfl := List.mem_singleton.mp ha
      exact h

theorem closes_externalConcatenateCleanup {a : Action}
    (ha : a ∈ externalConcatenateCleanup db view type extra) : Closes a := by
  rw [externalConcatenateCleanup] at ha
  rcases List.mem_cons.mp ha with rfl | ha
  · trivial
  · split at ha
    · exact absurd ha List.not_mem_nil
    · obtain ⟨x, -, rfl⟩ := List.mem_map.mp ha
      trivial

/-- No inode is the empty text, so without inodes nothing is attached. -/
theorem externalRows_nil {cols basename : Bytes} :
    (externalRows db cols type (some ([], basename))).getD [] = [] := by
  rw [externalRows]
  split_ifs
  · refine List.filter_eq_nil_iff.mpr fun x _ h => ?_
    have hinode := ((of_decide_eq_true h).2 _ rfl).1
    exact numeral_ne_nil 10 x.pinode hinode
  · rfl

theorem countP_attachExtdbs_of_fits (h : ∀ user ∈ setup, Fits dirInode user) :
    (attachExtdbs setup db dirInode).countP (fun a => isAttach ⟨.attach, a⟩) =
      (detachExtdbs setup db (some dirInode)).countP (fun a => isDetach ⟨.detach, a⟩) := by
  rw [attachExtdbs, detachExtdbs, List.countP_flatMap, List.countP_flatMap]
  refine congrArg List.sum (List.map_congr_left fun user huser => ?_)
  rw [Function.comp_apply, Function.comp_apply, countP_externalConcatenate,
    countP_externalConcatenateCleanup, externalRows_zero (h user huser)]

theorem countP_attachExtdbs_nil :
    (attachExtdbs setup db []).countP (fun a => isAttach ⟨.attach, a⟩) =
      (detachExtdbs setup db none).countP (fun a => isDetach ⟨.detach, a⟩) := by
  rw [attachExtdbs, detachExtdbs, List.countP_flatMap, List.countP_flatMap]
  refine congrArg List.sum (List.map_congr_left fun user _ => ?_)
  rw [Function.comp_apply, Function.comp_apply, countP_externalConcatenate, externalRows_nil]
  rfl

theorem bracket_extdbPass {attachInode : Bytes} {detachInode : Option Bytes}
    (h : (attachExtdbs setup db attachInode).countP (fun a => isAttach ⟨.attach, a⟩) =
      (detachExtdbs setup db detachInode).countP fun a => isDetach ⟨.detach, a⟩) :
    Bracket ident
      ((attachExtdbs setup db attachInode ++ [Action.createViews extdbViews]).map (⟨.attach, ·⟩))
      ((Action.dropViews extdbViews.reverse :: detachExtdbs setup db detachInode).map
        (⟨.detach, ·⟩)) where
  opens := by
    refine ⟨setup.map fun user => ident user.view, fun call hcall => ?_, fun name hname => ?_⟩
    · obtain ⟨a, ha, rfl⟩ := List.mem_map.mp hcall
      rcases List.mem_append.mp ha with ha | ha
      · obtain ⟨user, huser, ha⟩ := List.mem_flatMap.mp ha
        exact opens_externalConcatenate (List.mem_map.mpr ⟨user, huser, rfl⟩) ha
      · obtain rfl := List.mem_singleton.mp ha
        trivial
    · obtain ⟨user, huser, rfl⟩ := List.mem_map.mp hname
      refine ⟨⟨.detach, .dropView user.view⟩, List.mem_map.mpr ⟨_, ?_, rfl⟩, user.view, rfl, rfl⟩
      refine List.mem_cons_of_mem _ (List.mem_flatMap.mpr ⟨user, huser, ?_⟩)
      cases detachInode with
      | none => exact List.mem_singleton.mpr rfl
      | some inode => exact List.mem_cons_self
  ends := ⟨⟨.attach, .createViews extdbViews⟩, by simp, rfl⟩
  phase call hcall := by
    obtain ⟨a, -, rfl⟩ := List.mem_map.mp hcall
    rfl
  closes call hcall := by
    obtain ⟨a, ha, rfl⟩ := List.mem_map.mp hcall
    rcases List.mem_cons.mp ha with rfl | ha
    · trivial
    · obtain ⟨user, -, ha⟩ := List.mem_flatMap.mp ha
      cases detachInode with
      | none =>
          obtain rfl := List.mem_singleton.mp ha
          trivial
      | some inode => exact closes_externalConcatenateCleanup ha
  count := by
    rw [List.countP_map, List.countP_map, List.countP_append, List.countP_cons]
    exact h.symm

theorem bracket_xattrs :
    Bracket ident (setupXattrsViews db) (cleanupXattrsViews db) where
  opens := by
    refine ⟨[ident (text "xattrs")], fun call hcall => ?_, fun name hname => ?_⟩
    · obtain ⟨a, ha, rfl⟩ := List.mem_map.mp hcall
      rcases List.mem_append.mp ha with ha | ha
      · exact opens_externalConcatenate List.mem_cons_self ha
      · obtain ⟨view, -, rfl⟩ := List.mem_map.mp ha
        trivial
    · obtain rfl := List.mem_singleton.mp hname
      exact ⟨_, List.mem_map.mpr ⟨_, List.mem_cons_self, rfl⟩, text "xattrs", rfl, rfl⟩
  ends := ⟨⟨.attach, .createViewIfNotExists (text "vrxsummary")⟩,
    by simp [setupXattrsViews, xattrViews], rfl⟩
  phase call hcall := by
    obtain ⟨a, -, rfl⟩ := List.mem_map.mp hcall
    rfl
  closes call hcall := by
    obtain ⟨a, ha, rfl⟩ := List.mem_map.mp hcall
    exact closes_externalConcatenateCleanup ha
  count := by
    have hfits : (externalCreateQuery (text "filename") .xattrs none).length ≤ MAXSQL := by decide
    rw [cleanupXattrsViews, setupXattrsViews, List.countP_map, List.countP_map,
      List.countP_append]
    refine countP_externalConcatenateCleanup.trans ?_
    rw [externalRows_zero hfits]
    exact countP_externalConcatenate.symm

theorem balanced_extdbPasses (hfits : ∀ inode ∈ dirInodes db, ∀ user ∈ setup, Fits inode user) :
    ∀ pass ∈ extdbPasses setup db, Balanced ident pass := by
  have hpass {attachInode : Bytes} {detachInode : Option Bytes}
      (h : (attachExtdbs setup db attachInode).countP (fun a => isAttach ⟨.attach, a⟩) =
        (detachExtdbs setup db detachInode).countP fun a => isDetach ⟨.detach, a⟩) :
      Balanced ident (extdbPass setup db attachInode detachInode) := by
    have hquery : Balanced ident [⟨.query, .processQueries⟩] := .processQueries .query
    have := hquery.bracket (bracket_extdbPass h)
    simpa [extdbPass] using this
  intro pass hmem
  rw [extdbPasses] at hmem
  split_ifs at hmem
  · obtain rfl := List.mem_singleton.mp hmem
    exact .processQueries .query
  · obtain rfl := List.mem_singleton.mp hmem
    exact hpass countP_attachExtdbs_nil
  · obtain ⟨inode, hinode, rfl⟩ := List.mem_map.mp hmem
    exact hpass (countP_attachExtdbs_of_fits (hfits inode hinode))

theorem balanced_processdir
    (hfits : ∀ inode ∈ dirInodes db, ∀ user ∈ setup, Fits inode user) :
    Balanced ident (processdir setup processXattrs db) := by
  have hpasses : Balanced ident (extdbPasses setup db).flatten :=
    Balanced.flatten (balanced_extdbPasses hfits)
  cases processXattrs with
  | false => simpa [processdir] using hpasses
  | true => simpa [processdir] using hpasses.bracket bracket_xattrs

theorem fits_iff {user : ExternalView} :
    Fits dirInode user ↔ dirInode.length + user.basename.length ≤ 8082 := by
  have hselect : (text "SELECT ").length = 7 := by decide
  have hfilename : (text "filename").length = 8 := by decide
  have hwhere : (text " FROM external_dbs WHERE (type == '").length = 35 := by decide
  have htype : (typeText .userDb).length = 7 := by decide
  have hand : (text "')").length + (text " AND ").length + (text ";").length = 8 := by decide
  have hcomp : (text "(pinode == '").length +
      (text "') AND (basename(filename) == '").length + (text "')").length = 45 := by decide
  simp only [Fits, externalCreateQuery, basenameComp, MAXSQL, List.length_append]
  omega

/-- Whatever SQLite refuses, each pass over the directory and the directory as a whole leave
attached what was attached before, and in between only a view that a detach step has still to drop
may select from a database that is no longer attached. -/
theorem external_dbs_in_balance
    (hfits : ∀ inode ∈ dirInodes db, ∀ user ∈ setup, Fits inode user) {events : List Event}
    (hevents : events.map (·.toCall) = processdir setup processXattrs db) {c : Conn}
    (hc : c.Good) :
    Holds ident events c ∧
      (∀ before pass after done mid todo, extdbPasses setup db = before ++ pass :: after →
        events = done ++ mid ++ todo → mid.map (·.toCall) = pass →
        done.map (·.toCall) =
          (if processXattrs then setupXattrsViews db else []) ++ before.flatten →
        (run ident (done ++ mid) c).names = (run ident done c).names) ∧
      (run ident events c).names = c.names := by
  have hreturns : Returns ident events c := balanced_processdir hfits hevents hc
  refine ⟨hreturns.holds, ?_, hreturns.names⟩
  intro before pass after done mid todo hpasses _ hmid hdone
  have hbalanced : ∀ pass ∈ extdbPasses setup db, Balanced ident pass :=
    balanced_extdbPasses hfits
  obtain ⟨first, second, rfl, hfirst, hsecond⟩ := List.map_eq_append_iff.mp hdone
  have hopened : (run ident first c).Good := by
    cases processXattrs with
    | false =>
        obtain rfl := List.map_eq_nil_iff.mp hfirst
        exact hc
    | true => exact bracket_xattrs.good hfirst hc
  have hbefore : Balanced ident before.flatten := .flatten fun p hp =>
    hbalanced p (hpasses ▸ List.mem_append_left _ hp)
  have hgood := (hbefore hsecond hopened).good hopened
  rw [run_append, run_append]
  exact (hbalanced pass (hpasses ▸ List.mem_append_right _ List.mem_cons_self) hmid hgood).names

section Two

/-- Two views of one database each. -/
def twoViews : List ExternalView :=
  [⟨text "a", text "v", by decide⟩, ⟨text "b", text "w", by decide⟩]

def twoDbs : Db :=
  { (default : Db) with
    summary := [⟨[], 0, ⟨0, 0, 0⟩, 0, 0, 0, [], 0, true, false, false⟩]
    externalDbsPwd := [⟨.userDb, 0, text "/a", ⟨0, 0, 0⟩⟩, ⟨.userDb, 0, text "/b", ⟨0, 0, 0⟩⟩] }

def twoEvents : List Event :=
  (processdir twoViews false twoDbs).map fun call => ⟨call, true, 2⟩

def treeConn : Conn := ⟨⟨[text "main", text "tree"], 0⟩, [], []⟩

theorem good_treeConn : treeConn.Good where
  nodup := by decide
  free i _ h := by
    have hlong : 5 < (attachName i).length := by
      have := List.length_pos_iff.mpr (numeral_ne_nil 10 i)
      have hextdb : (text "extdb").length = 5 := by decide
      rw [attachName, List.length_append]
      omega
    rcases List.mem_cons.mp h with h | h
    · rw [h] at hlong
      exact absurd hlong (by decide)
    · rw [List.mem_singleton.mp h] at hlong
      exact absurd hlong (by decide)
  refs v hv := absurd hv List.not_mem_nil
  unioncmd := rfl

theorem external_dbs_in_balance_two :
    Holds id twoEvents treeConn ∧ (run id twoEvents treeConn).names = treeConn.names := by
  have hevents : twoEvents.map (·.toCall) = processdir twoViews false twoDbs := by
    simp [twoEvents, Function.comp_def]
  have hfits : ∀ inode ∈ dirInodes twoDbs, ∀ user ∈ twoViews, Fits inode user := by
    intro inode hinode user huser
    rw [fits_iff]
    revert huser user hinode inode
    decide
  obtain ⟨hholds, -, hnames⟩ := @external_dbs_in_balance id _ _ _ hfits _ hevents _ good_treeConn
  exact ⟨hholds, hnames⟩

/-- The first view has been dropped and the last database detached: it belongs to the other view. -/
theorem view_of_detached_db :
    ¬ ∀ (setup : List ExternalView) (processXattrs : Bool) (db : Db) (events done todo : List Event)
      (c : Conn), events.map (·.toCall) = processdir setup processXattrs db → c.Good →
      events = done ++ todo →
      ∀ v ∈ (run id done c).views, v.refs ⊆ (run id done c).names.held := by
  intro h
  have hevents : twoEvents.map (·.toCall) = processdir twoViews false twoDbs := by
    simp [twoEvents, Function.comp_def]
  have hviews := h twoViews false twoDbs twoEvents (twoEvents.take 9) (twoEvents.drop 9) treeConn
    hevents good_treeConn (List.take_append_drop 9 twoEvents).symm
  have hw : (⟨text "w", [attachName 1]⟩ : View) ∈ (run id (twoEvents.take 9) treeConn).views := by
    decide +kernel
  have hattached := hviews _ hw List.mem_cons_self
  revert hattached
  decide +kernel

end Two

end Directories

end Gufi.ExternalAttach
