import NestedViews.Proofs.Effect
import NestedViews.Proofs.Nesting.Finality
import NestedViews.Proofs.Success

/-! The search for parents without bounds on its recursion. It returns all the same, with what the
bounded search returns: the groups under way are always different ones with definitions, and so are
the groups on a chain. -/

namespace NestedViews.ParentSearch

open Effect

structure Course where
  now : ParentSearch
  past : List ParentSearch

namespace Course

/-- An attempt at something in a search. It may never come to an end, for which `none` stands. -/
abbrev Attempt := StateT Course Option

def look : Attempt ParentSearch :=
  return (← get).now

def change (f : ParentSearch → ParentSearch) : Attempt Unit :=
  modify fun c => ⟨f c.now, f c.now :: c.past⟩

end Course

open Course

inductive Task
  | parentOf (name : String)
  | infer (d : GroupDefinition)
  | chains (groups : List String)
  | chainTo (group : String)
  | extend (chain : List String) (parent : Option String)

namespace Task

abbrev Result : Task → Type
  | parentOf _ => Option String
  | infer _ => Option String
  | chains _ => List (List String)
  | chainTo _ => List String
  | extend _ _ => List String

variable (definitions : List GroupDefinition)

/-- The search with neither a depth nor a number of steps. An error is passed on by hand, as the
group under way has to be taken off in any case. -/
def run : (t : Task) → Attempt (Except Error t.Result)
  | parentOf name => do
    let s ← look
    match s.found.lookup name with
    | some parent => return .ok parent
    | none =>
      if name ∈ s.pending then return .error (.cyclic (closedPath s.pending name))
      else
        match definition? definitions name with
        | none => return .ok none
        | some d =>
          match ← (do
            change fun s => { s with pending := name :: s.pending }
            let answer ← infer d |>.run
            change fun s => { s with pending := s.pending.tail }
            return answer) with
          | .error e => return .error e
          | .ok parent =>
            change fun s => { s with found := (name, parent) :: s.found }
            return .ok parent
  | infer d =>
    match d.parent with
    | some parent => return some <$> declared definitions d parent
    | none =>
      match d.boundGroups.find? (isLeaf definitions) with
      | some leaf => return .error (.schema (.bindsToLeaf d.name leaf))
      | none =>
        match d.boundGroups with
        | [] => return .ok none
        | [group] => return .ok (some group)
        | bound => do
          match ← chains bound |>.run with
          | .error e => return .error e
          | .ok found =>
            match (bound.zip found).find? fun (_, chain) => bound.all (· ∈ chain) with
            | some (deepest, _) => return .ok (some deepest)
            | none => return .error (.schema (.separateBranches d.name bound))
  | chains [] => return .ok []
  | chains (group :: groups) => do
    match ← chainTo group |>.run with
    | .error e => return .error e
    | .ok chain =>
      match ← chains groups |>.run with
      | .error e => return .error e
      | .ok others => return .ok (chain :: others)
  | chainTo group => do
    match ← parentOf group |>.run with
    | .error e => return .error e
    | .ok parent => extend [group] parent |>.run
  | extend chain none => return .ok chain
  | extend chain (some parent) => do
    let s ← look
    if parent ∈ s.pending then return .error (.cyclic (parent :: chain ++ [parent]))
    else if parent ∈ chain then return .ok chain
    else
      match ← parentOf parent |>.run with
      | .error e => return .error e
      | .ok next => extend (parent :: chain) next |>.run
partial_fixpoint

end Task

structure Kept (definitions : List GroupDefinition) (s : ParentSearch) : Prop where
  nodup : s.pending.Nodup
  defined : s.pending ⊆ definitions.map GroupDefinition.name
  found : ∀ entry ∈ s.found, entry.1 ∈ definitions.map GroupDefinition.name ∧
    Final definitions entry.1 entry.2

variable {definitions : List GroupDefinition} {s : ParentSearch} {name : String}

namespace Kept

theorem empty : Kept definitions .empty :=
  ⟨List.nodup_nil, List.nil_subset _, by simp [ParentSearch.empty]⟩

theorem length_le (h : Kept definitions s) : s.pending.length ≤ definitions.length := by
  simpa using (List.subperm_of_subset h.nodup h.defined).length_le

theorem push (h : Kept definitions s) (hname : name ∈ definitions.map GroupDefinition.name)
    (hnew : name ∉ s.pending) :
    Kept definitions { s with pending := name :: s.pending } :=
  ⟨List.nodup_cons.mpr ⟨hnew, h.nodup⟩, List.cons_subset.mpr ⟨hname, h.defined⟩, h.found⟩

theorem pop (h : Kept definitions s) : Kept definitions { s with pending := s.pending.tail } :=
  ⟨h.nodup.tail, fun _ ha => h.defined (List.mem_of_mem_tail ha), h.found⟩

theorem record {parent : Option String} (h : Kept definitions s)
    (hname : name ∈ definitions.map GroupDefinition.name)
    (hparent : Final definitions name parent) :
    Kept definitions { s with found := (name, parent) :: s.found } :=
  ⟨h.nodup, h.defined, List.forall_mem_cons.mpr ⟨⟨hname, hparent⟩, h.found⟩⟩

theorem of_lookup {parent : Option String} (h : Kept definitions s)
    (hlookup : s.found.lookup name = some parent) : Final definitions name parent := by
  obtain ⟨before, after, hfound, _⟩ := List.lookup_eq_some_iff.mp hlookup
  exact (h.found (name, parent) (by simp [hfound])).2

end Kept

/-- An unbounded part of a search returns what the bounded one returns. It goes through states that
are kept, forgets nothing that was found and leaves the groups under way as they were. -/
structure Completes {α : Type} (definitions : List GroupDefinition) (good : α → Prop)
    (x : Attempt (Except Error α)) (y : Search α) (s : ParentSearch) : Prop where
  returns : ∃ between, (∀ t ∈ between, Kept definitions t) ∧
    ∀ past, x ⟨s, past⟩ = some ((y s).1, ⟨(y s).2, between ++ past⟩)
  kept : Kept definitions (y s).2
  pending_eq : (y s).2.pending = s.pending
  found_suffix : s.found <:+ (y s).2.found
  good : ∀ a, (y s).1 = .ok a → good a

namespace Completes

variable {α β : Type} {good : α → Prop} {good' : β → Prop}

theorem answer {answer : Except Error α} {y : Search α} (hs : Kept definitions s)
    (hy : y s = (answer, s)) (hgood : ∀ a, answer = .ok a → good a) :
    Completes definitions good (Pure.pure answer) y s := by
  refine ⟨⟨[], by simp, fun past => by rw [hy]; rfl⟩, ?_, ?_, ?_, ?_⟩ <;> rw [hy]
  · exact hs
  · exact hgood

theorem pure {a : α} (hs : Kept definitions s) (ha : good a) :
    Completes definitions good (Pure.pure (.ok a)) (Pure.pure a) s := by
  apply answer hs rfl
  rintro _ ⟨⟩
  exact ha

theorem throw {e : Error} {y : Search α} (hs : Kept definitions s)
    (hy : y s = (.error e, s)) : Completes definitions good (Pure.pure (.error e)) y s := by
  apply answer hs hy
  rintro _ ⟨⟩

theorem imp {x : Attempt (Except Error α)} {y : Search α} {good' : α → Prop}
    (h : Completes definitions good x y s) (himp : ∀ a, good a → good' a) :
    Completes definitions good' x y s :=
  { h with good := fun a ha => himp a (h.good a ha) }

theorem bind {x : Attempt (Except Error α)} {y : Search α}
    {k : Except Error α → Attempt (Except Error β)} {f : α → Search β}
    (h : Completes definitions good x y s) (herror : ∀ e, k (.error e) = Pure.pure (.error e))
    (hok : ∀ a s', good a → Kept definitions s' → s'.pending = s.pending →
      Completes definitions good' (k (.ok a)) (f a) s') :
    Completes definitions good' (x >>= k) (y >>= f) s := by
  obtain ⟨between, hbetween, hx⟩ := h.returns
  have hrun : ∀ past, (x >>= k) ⟨s, past⟩ = k (y s).1 ⟨(y s).2, between ++ past⟩ := by
    intro past
    change (x ⟨s, past⟩).bind _ = _
    rw [hx]
    rfl
  have hkept := h.kept
  have hpending := h.pending_eq
  have hfound := h.found_suffix
  rcases hy : y s with ⟨e | a, s'⟩ <;> rw [hy] at hrun hkept hpending hfound
  · have hyf : (y >>= f) s = (.error e, s') := bind_eq_of_error hy
    refine ⟨⟨between, hbetween, fun past => ?_⟩, ?_, ?_, ?_, ?_⟩
    · rw [hrun, herror, hyf]
      rfl
    · rwa [hyf]
    · rwa [hyf]
    · rwa [hyf]
    · rw [hyf]
      rintro _ ⟨⟩
  · have hyf : (y >>= f) s = f a s' := bind_eq_of_ok hy
    have hnext := hok a s' (h.good a (by rw [hy])) hkept hpending
    obtain ⟨between', hbetween', hk⟩ := hnext.returns
    refine ⟨⟨between' ++ between, List.forall_mem_append.mpr ⟨hbetween', hbetween⟩, fun past => ?_⟩,
      ?_, ?_, ?_, ?_⟩
    · rw [hrun, hk, hyf, List.append_assoc]
    · rw [hyf]
      exact hnext.kept
    · rw [hyf]
      exact hnext.pending_eq.trans hpending
    · rw [hyf]
      exact hfound.trans hnext.found_suffix
    · rw [hyf]
      exact hnext.good

theorem look {x : ParentSearch → Attempt (Except Error α)} {y : ParentSearch → Search α}
    (h : Completes definitions good (x s) (y s) s) :
    Completes definitions good (look >>= x) (get >>= y) s :=
  ⟨h.returns, h.kept, h.pending_eq, h.found_suffix, h.good⟩

theorem during {x : Attempt (Except Error α)} {y : Search α} (hs : Kept definitions s)
    (hname : name ∈ definitions.map GroupDefinition.name) (hnew : name ∉ s.pending)
    (h : Completes definitions good x y { s with pending := name :: s.pending }) :
    Completes definitions good
      (do
        change fun s => { s with pending := name :: s.pending }
        let answer ← x
        change fun s => { s with pending := s.pending.tail }
        return answer)
      (ParentSearch.during name y) s where
  returns := by
    obtain ⟨between, hbetween, hx⟩ := h.returns
    let pushed : ParentSearch := { s with pending := name :: s.pending }
    let popped := (ParentSearch.during name y s).2
    refine ⟨popped :: between ++ [pushed], ?_, fun past => ?_⟩
    · rw [List.forall_mem_append, List.forall_mem_cons, List.forall_mem_singleton]
      exact ⟨⟨h.kept.pop, hbetween⟩, hs.push hname hnew⟩
    · change (x ⟨pushed, pushed :: past⟩).bind _ = _
      rw [hx, List.append_assoc]
      rfl
  kept := h.kept.pop
  pending_eq := congrArg List.tail h.pending_eq
  found_suffix := h.found_suffix
  good := h.good

theorem record {parent : Option String} (hs : Kept definitions s)
    (hname : name ∈ definitions.map GroupDefinition.name)
    (hparent : Final definitions name parent) :
    Completes definitions (Final definitions name)
      (do
        change fun s => { s with found := (name, parent) :: s.found }
        return .ok parent)
      (do
        ParentSearch.record name parent
        return parent) s where
  returns := by
    refine ⟨[{ s with found := (name, parent) :: s.found }], ?_, fun _ => rfl⟩
    rw [List.forall_mem_singleton]
    exact hs.record hname hparent
  kept := hs.record hname hparent
  pending_eq := rfl
  found_suffix := List.suffix_cons _ _
  good := by
    rintro _ ⟨⟩
    exact hparent

end Completes

def StandsIn (definitions : List GroupDefinition) (stack : List String)
    (step : String → Search (Option String)) : Prop :=
  ∀ name s, Kept definitions s → s.pending = stack →
    Completes definitions (Final definitions name) (Task.run definitions (.parentOf name))
      (step name) s

section Parts

variable {stack : List String} {step : String → Search (Option String)}

theorem completes_extend {steps : Nat} {last : String} {chain : List String}
    {parent : Option String} (hstep : StandsIn definitions stack step)
    (hs : Kept definitions s) (hstack : s.pending = stack) (hlast : Final definitions last parent)
    (hdefined : chain ⊆ definitions.map GroupDefinition.name) (hnodup : (last :: chain).Nodup)
    (hsteps : definitions.length < steps + chain.length) :
    Completes definitions (Chain definitions (last :: chain))
      (Task.run definitions (.extend (last :: chain) parent))
      (extend step steps (last :: chain) parent) s := by
  induction steps generalizing last chain parent s with
  | zero =>
    -- There would be more groups on the chain than definitions.
    have hle := (List.subperm_of_subset hnodup.of_cons hdefined).length_le
    rw [List.length_map] at hle
    omega
  | succ steps ih =>
    cases parent with
    | none =>
      rw [Task.run]
      exact .pure hs (.stop hlast (by simp))
    | some parent =>
      rw [Task.run, ParentSearch.extend]
      apply Completes.look
      by_cases hpending : parent ∈ s.pending
      · simp only [if_pos hpending]
        exact .throw hs rfl
      · simp only [if_neg hpending]
        by_cases hmem : parent ∈ last :: chain
        · simp only [if_pos hmem]
          exact .pure hs (.stop hlast (by simpa using hmem))
        · simp only [if_neg hmem]
          refine .bind (hstep parent s hs hstack) (fun _ => rfl)
            fun next s' hnext hs' hpending' => ?_
          have hdefined' : last :: chain ⊆ definitions.map GroupDefinition.name :=
            List.cons_subset.mpr ⟨hlast.mem_names, hdefined⟩
          apply (ih hs' (hpending'.trans hstack) hnext hdefined'
            (List.nodup_cons.mpr ⟨hmem, hnodup⟩) (by simp; omega)).imp
          exact fun whole hwhole => .up hlast hmem hwhole

theorem completes_chainTo {group : String} (hstep : StandsIn definitions stack step)
    (hs : Kept definitions s) (hstack : s.pending = stack) :
    Completes definitions (Chain definitions [group]) (Task.run definitions (.chainTo group))
      (chainTo step (definitions.length + 1) group) s := by
  rw [Task.run, chainTo]
  refine .bind (hstep group s hs hstack) (fun _ => rfl) fun parent s' hparent hs' hpending => ?_
  exact completes_extend hstep hs' (hpending.trans hstack) hparent (List.nil_subset _)
    (List.nodup_singleton group) (by simp)

theorem completes_chains {groups : List String} (hstep : StandsIn definitions stack step)
    (hs : Kept definitions s) (hstack : s.pending = stack) :
    Completes definitions (List.Forall₂ (fun g chain => Chain definitions [g] chain) groups)
      (Task.run definitions (.chains groups))
      (groups.mapM (chainTo step (definitions.length + 1))) s := by
  induction groups generalizing s with
  | nil =>
    rw [Task.run, List.mapM_nil]
    exact .pure hs .nil
  | cons group groups ih =>
    rw [Task.run, List.mapM_cons]
    refine .bind (completes_chainTo hstep hs hstack) (fun _ => rfl)
      fun chain s' hchain hs' hpending => ?_
    refine .bind (ih hs' (hpending.trans hstack)) (fun _ => rfl) fun chains s'' hchains hs'' _ => ?_
    exact .pure hs'' (.cons hchain hchains)

theorem find?_zip_map {α β : Type} (f : α → β) (p : α × β → Bool) (as : List α) :
    (as.zip (as.map f)).find? p = (as.find? fun a => p (a, f a)).map fun a => (a, f a) := by
  rw [← List.map_prod_left_eq_zip, List.find?_map]
  rfl

theorem exists_chainOf {groups : List String} {chains : List (List String)}
    (h : List.Forall₂ (fun g chain => Chain definitions [g] chain) groups chains) :
    ∃ chainOf : String → List String, chains = groups.map chainOf ∧
      ∀ g ∈ groups, Chain definitions [g] (chainOf g) := by
  have hchains : ∀ g, ∃ chain, g ∈ groups → Chain definitions [g] chain := by
    intro g
    by_cases hg : g ∈ groups
    · obtain ⟨chain, hchain⟩ := exists_of_forall₂ h hg
      exact ⟨chain, fun _ => hchain⟩
    · exact ⟨[], fun hmem => absurd hmem hg⟩
  choose chainOf hchainOf using hchains
  refine ⟨chainOf, ?_, hchainOf⟩
  have heq := forall₂_imp_of_mem h fun g hg chain hchain => (hchainOf g hg).unique _ hchain
  rw [← List.forall₂_eq_eq_eq, List.forall₂_map_right_iff]
  exact heq.flip

theorem eq_of_declared {d : GroupDefinition} {parent target : String}
    (h : declared definitions d parent = .ok target) : target = parent := by
  unfold declared at h
  split at h
  · cases h
  · split at h
    · cases h
      rfl
    · cases h

theorem completes_infer {d : GroupDefinition} (hstep : StandsIn definitions stack step)
    (hd : definition? definitions name = some d)
    (hs : Kept definitions s) (hstack : s.pending = stack) :
    Completes definitions (Final definitions name) (Task.run definitions (.infer d))
      (infer definitions step d) s := by
  rw [Task.run, infer]
  cases hparent : d.parent with
  | some parent =>
    apply Completes.answer hs
    · dsimp only
      cases declared definitions d parent <;> rfl
    · intro a ha
      obtain ⟨target, htarget, rfl⟩ := map_eq_ok.mp ha
      rw [eq_of_declared htarget]
      exact .declared hd hparent
  | none =>
    cases hleaf : d.boundGroups.find? (isLeaf definitions) with
    | some leaf => exact .throw hs rfl
    | none =>
      rcases hbound : d.boundGroups with _ | ⟨g, _ | ⟨g', rest⟩⟩
      · exact .pure hs (.unbound hd hparent hbound)
      · exact .pure hs (.single hd hparent hbound)
      · dsimp only
        rw [deepest, bind_assoc, ← hbound]
        refine .bind (completes_chains hstep hs hstack) (fun _ => rfl)
          fun chains s' hchains hs' _ => ?_
        obtain ⟨chainOf, rfl, hchainOf⟩ := exists_chainOf hchains
        dsimp only
        rw [find?_zip_map]
        cases hfind : d.boundGroups.find? fun g => d.boundGroups.all (· ∈ chainOf g) with
        | none => exact .throw hs' rfl
        | some group => exact .pure hs' (.several hd hparent hchainOf hfind)

end Parts

theorem standsIn_parentOf {depth : Nat} {stack : List String}
    (hdepth : definitions.length < depth + stack.length) :
    StandsIn definitions stack (parentOf definitions depth) := by
  induction depth generalizing stack with
  | zero =>
    -- More groups would be under way than there are definitions.
    intro name s hs hstack
    have hle := hs.length_le
    rw [hstack] at hle
    omega
  | succ depth ih =>
    intro name s hs hstack
    subst hstack
    rw [Task.run, parentOf]
    apply Completes.look
    cases hlookup : s.found.lookup name with
    | some parent => exact .pure hs (hs.of_lookup hlookup)
    | none =>
      by_cases hpending : name ∈ s.pending
      · simp only [if_pos hpending]
        exact .throw hs rfl
      · simp only [if_neg hpending]
        cases hd : definition? definitions name with
        | none => exact .pure hs (.undefined hd)
        | some d =>
          have hname := mem_names_of_definition? hd
          have hinner : StandsIn definitions (name :: s.pending) (parentOf definitions depth) :=
            ih (by rw [List.length_cons]; omega)
          have hinfer := completes_infer hinner hd (hs.push hname hpending) rfl
          refine .bind (.during hs hname hpending hinfer) (fun _ => rfl)
            fun parent s' hparent hs' _ => ?_
          exact .record hs' hname hparent

theorem standsIn_search {stack : List String} :
    StandsIn definitions stack (parentOf definitions (definitions.length + 1)) :=
  standsIn_parentOf (by omega)

def afterAll (definitions : List GroupDefinition) (asked : List String) : ParentSearch :=
  asked.foldl (fun s name => (parentOf definitions (definitions.length + 1) name s).2) .empty

theorem kept_afterAll (asked : List String) :
    Kept definitions (afterAll definitions asked) ∧ (afterAll definitions asked).pending = [] := by
  induction asked using List.reverseRecOn with
  | nil => exact ⟨.empty, rfl⟩
  | append_singleton asked name ih =>
    obtain ⟨hkept, hpending⟩ := ih
    have hnext := standsIn_search name _ hkept rfl
    rw [afterAll, List.foldl_concat]
    exact ⟨hnext.kept, hnext.pending_eq.trans hpending⟩

/-- Whatever was asked for before, and in the middle of any search, each part of the search returns
without any bound on it. At all times the groups under way are different ones with definitions, and
what was found is final. -/
theorem search_returns (definitions : List GroupDefinition) :
    (∀ asked, Kept definitions (afterAll definitions asked) ∧
      (afterAll definitions asked).pending = []) ∧
    ∀ s, Kept definitions s →
      s.pending.length ≤ definitions.length ∧
      (∀ entry ∈ s.found, ∀ parent, Final definitions entry.1 parent ↔ parent = entry.2) ∧
      (∀ name, Completes definitions (Final definitions name)
        (Task.run definitions (.parentOf name))
        (parentOf definitions (definitions.length + 1) name) s) ∧
      (∀ name d, definition? definitions name = some d →
        Completes definitions (Final definitions name)
          (Task.run definitions (.infer d))
          (infer definitions (parentOf definitions (definitions.length + 1)) d) s) ∧
      ∀ group, Completes definitions (Chain definitions [group])
        (Task.run definitions (.chainTo group))
        (chainTo (parentOf definitions (definitions.length + 1)) (definitions.length + 1) group)
        s := by
  refine ⟨kept_afterAll, fun s hs => ?_⟩
  refine ⟨hs.length_le, ?_, fun name => standsIn_search name s hs rfl,
    fun name d hd => completes_infer standsIn_search hd hs rfl,
    fun group => completes_chainTo standsIn_search hs rfl⟩
  intro entry hentry parent
  have hfinal := (hs.found entry hentry).2
  constructor
  · exact hfinal.unique parent
  · rintro rfl
    exact hfinal

def guests : GroupDefinition :=
  ⟨"guests", [⟨"id", .int64⟩],
    some ⟨"SELECT id FROM guests WHERE day = ? AND night = ?",
      [⟨"days.id", none⟩, ⟨"nights.id", none⟩]⟩, none⟩

def guestDefinitions : List GroupDefinition :=
  [⟨"days", [⟨"id", .int64⟩], some ⟨"SELECT id FROM days", []⟩, some "nights"⟩,
    ⟨"nights", [⟨"id", .int64⟩], some ⟨"SELECT id FROM nights", []⟩, some "days"⟩, guests]

theorem search_returns_guests :
    Kept guestDefinitions ⟨[("days", some "nights")], ["guests"]⟩ ∧
      definition? guestDefinitions "guests" = some guests ∧
      (∀ parent, Final guestDefinitions "days" parent ↔ parent = some "nights") ∧
      Final guestDefinitions "guests" (some "days") ∧
      ∃ past, Task.run guestDefinitions (.infer guests)
          ⟨⟨[("days", some "nights")], ["guests"]⟩, []⟩ =
        some (.ok (some "days"),
          ⟨⟨[("nights", some "days"), ("days", some "nights")], ["guests"]⟩, past⟩) := by
  have hkept : Kept guestDefinitions ⟨[("days", some "nights")], ["guests"]⟩ := by
    refine ⟨by decide, by decide, ?_⟩
    rw [List.forall_mem_singleton]
    exact ⟨by decide, .declared rfl rfl⟩
  have hguests : definition? guestDefinitions "guests" = some guests := by
    decide +kernel
  have hanswer : (infer guestDefinitions (parentOf guestDefinitions (guestDefinitions.length + 1))
      guests ⟨[("days", some "nights")], ["guests"]⟩).1 = .ok (some "days") := by
    decide +kernel
  have hstate : (infer guestDefinitions (parentOf guestDefinitions (guestDefinitions.length + 1))
      guests ⟨[("days", some "nights")], ["guests"]⟩).2 =
        ⟨[("nights", some "days"), ("days", some "nights")], ["guests"]⟩ := by
    decide +kernel
  obtain ⟨_, hfinal, _, hinfer, _⟩ := (search_returns guestDefinitions).2 _ hkept
  obtain ⟨past, _, hreturns⟩ := (hinfer "guests" guests hguests).returns
  have hgood := (hinfer "guests" guests hguests).good (some "days") hanswer
  refine ⟨hkept, hguests, hfinal ("days", some "nights") (.head _), hgood, past ++ [], ?_⟩
  rw [hreturns, hanswer, hstate]

end NestedViews.ParentSearch
