import Mathlib

namespace NestedViews

variable {ε α β : Type}

@[simp] theorem pure_eq_ok {a b : α} : (pure a : Except ε α) = .ok b ↔ a = b :=
  ⟨Except.ok.inj, congrArg Except.ok⟩

@[simp] theorem throw_eq_ok {e : ε} {a : α} : (throw e : Except ε α) = .ok a ↔ False :=
  ⟨nofun, False.elim⟩

@[simp] theorem bind_eq_ok {first : Except ε α} {next : α → Except ε β} {out : β} :
    first >>= next = .ok out ↔ ∃ a, first = .ok a ∧ next a = .ok out := by
  cases first with
  | error e =>
    constructor
    · rintro ⟨⟩
    · rintro ⟨_, ⟨⟩, _⟩
  | ok a =>
    constructor
    · exact fun h => ⟨a, rfl, h⟩
    · rintro ⟨_, ⟨⟩, h⟩
      exact h

theorem bind_eq_error {first : Except ε α} {next : α → Except ε β} {e : ε} :
    first >>= next = .error e ↔ first = .error e ∨ ∃ a, first = .ok a ∧ next a = .error e := by
  cases first with
  | error e' =>
    constructor
    · rintro ⟨⟩
      exact .inl rfl
    · rintro (⟨⟨⟩⟩ | ⟨_, ⟨⟩, _⟩)
      rfl
  | ok a =>
    constructor
    · exact fun h => .inr ⟨a, rfl, h⟩
    · rintro (⟨⟨⟩⟩ | ⟨_, ⟨⟩, h⟩)
      exact h

@[simp] theorem map_eq_ok {first : Except ε α} {convert : α → β} {out : β} :
    convert <$> first = .ok out ↔ ∃ a, first = .ok a ∧ convert a = out := by
  cases first with
  | error e =>
    constructor
    · rintro ⟨⟩
    · rintro ⟨_, ⟨⟩, _⟩
  | ok a =>
    constructor
    · exact fun h => ⟨a, rfl, Except.ok.inj h⟩
    · rintro ⟨_, ⟨⟩, h⟩
      exact congrArg Except.ok h

theorem map_eq_error {first : Except ε α} {convert : α → β} {e : ε} :
    convert <$> first = .error e ↔ first = .error e := by
  cases first with
  | error e' =>
    constructor
    · rintro ⟨⟩
      rfl
    · rintro ⟨⟩
      rfl
  | ok a =>
    constructor
    · rintro ⟨⟩
    · rintro ⟨⟩

theorem mapM_eq_ok {f : α → Except ε β} {as : List α} {bs : List β} :
    as.mapM f = .ok bs ↔ List.Forall₂ (fun a b => f a = .ok b) as bs := by
  induction as generalizing bs with
  | nil => cases bs <;> simp
  | cons a as ih =>
    rw [List.mapM_cons, bind_eq_ok, List.forall₂_cons_left_iff]
    constructor
    · rintro ⟨b, hb, h⟩
      rw [bind_eq_ok] at h
      obtain ⟨bs, hbs, h⟩ := h
      exact ⟨b, bs, hb, ih.mp hbs, (pure_eq_ok.mp h).symm⟩
    · rintro ⟨b, bs, hb, hbs, rfl⟩
      exact ⟨b, hb, bind_eq_ok.mpr ⟨bs, ih.mpr hbs, rfl⟩⟩

theorem forM_eq_ok {f : α → Except ε Unit} {as : List α} :
    as.forM f = .ok () ↔ ∀ a ∈ as, f a = .ok () := by
  induction as with
  | nil => exact ⟨fun _ _ h => (List.not_mem_nil h).elim, fun _ => rfl⟩
  | cons a as ih =>
    change (f a >>= fun _ => as.forM f) = .ok () ↔ _
    rw [bind_eq_ok, List.forall_mem_cons, ← ih]
    constructor
    · rintro ⟨_, h⟩
      exact h
    · exact fun h => ⟨(), h⟩

theorem forM_eq_error {f : α → Except ε Unit} {as : List α} {e : ε} : as.forM f = .error e ↔
    ∃ before a after, as = before ++ a :: after ∧ (∀ b ∈ before, f b = .ok ()) ∧
      f a = .error e := by
  induction as with
  | nil =>
    constructor
    · rintro ⟨⟩
    · rintro ⟨before, a, after, has, _⟩
      simp at has
  | cons a as ih =>
    change (f a >>= fun _ => as.forM f) = .error e ↔ _
    cases ha : f a with
    | error e' =>
      constructor
      · rintro ⟨⟩
        exact ⟨[], a, as, rfl, by simp, ha⟩
      · rintro ⟨_ | ⟨b, before⟩, a', after, has, hbefore, ha'⟩
        · obtain ⟨rfl, rfl⟩ := List.cons.inj has
          cases ha.symm.trans ha'
          rfl
        · obtain ⟨rfl, rfl⟩ := List.cons.inj has
          simp [ha] at hbefore
    | ok _ =>
      change as.forM f = .error e ↔ _
      rw [ih]
      constructor
      · rintro ⟨before, a', after, rfl, hbefore, ha'⟩
        exact ⟨a :: before, a', after, rfl, List.forall_mem_cons.mpr ⟨ha, hbefore⟩, ha'⟩
      · rintro ⟨_ | ⟨b, before⟩, a', after, has, hbefore, ha'⟩
        · obtain ⟨rfl, rfl⟩ := List.cons.inj has
          simp [ha] at ha'
        · obtain ⟨rfl, rfl⟩ := List.cons.inj has
          exact ⟨before, a', after, rfl, (List.forall_mem_cons.mp hbefore).2, ha'⟩

theorem eq_ok_of_toOption {x : Except ε α} {a : α} (h : x.toOption = some a) : x = .ok a := by
  cases x with
  | error e => cases h
  | ok b => exact congrArg Except.ok (Option.some.inj h)

theorem exists_ok_of_isSome {x : Except ε α} (h : x.toOption.isSome) : ∃ a, x = .ok a := by
  obtain ⟨a, ha⟩ := Option.isSome_iff_exists.mp h
  exact ⟨a, eq_ok_of_toOption ha⟩

theorem exists_of_mapM_eq_some {f : α → Except ε β} {a? : Option α} {b : β}
    (h : a?.mapM f = .ok (some b)) : ∃ a, a? = some a ∧ f a = .ok b := by
  cases a? with
  | none => cases h
  | some a =>
    rw [Option.mapM_some, map_eq_ok] at h
    obtain ⟨b', hb, heq⟩ := h
    cases heq
    exact ⟨a, rfl, hb⟩

theorem isSome_of_mapM {f : α → Except ε β} {a? : Option α} {b? : Option β}
    (h : a?.mapM f = .ok b?) : b?.isSome = a?.isSome := by
  cases a? with
  | none =>
    cases h
    rfl
  | some a =>
    rw [Option.mapM_some, map_eq_ok] at h
    obtain ⟨b, _, rfl⟩ := h
    rfl

theorem mapM_eq_error_iff {f : α → Except ε β} {as : List α} {e : ε} :
    as.mapM f = .error e ↔ ∃ before a after, as = before ++ a :: after ∧
      (∀ b ∈ before, ∃ out, f b = .ok out) ∧ f a = .error e := by
  induction as with
  | nil =>
    constructor
    · rintro ⟨⟩
    · rintro ⟨before, a, after, has, _⟩
      simp at has
  | cons a as ih =>
    rw [List.mapM_cons, bind_eq_error]
    constructor
    · rintro (ha | ⟨out, ha, h⟩)
      · exact ⟨[], a, as, rfl, by simp, ha⟩
      · rw [bind_eq_error] at h
        obtain h | ⟨_, _, ⟨⟩⟩ := h
        obtain ⟨before, a', after, rfl, hbefore, ha'⟩ := ih.mp h
        exact ⟨a :: before, a', after, rfl, List.forall_mem_cons.mpr ⟨⟨out, ha⟩, hbefore⟩, ha'⟩
    · rintro ⟨_ | ⟨b, before⟩, a', after, has, hbefore, ha'⟩
      · obtain ⟨rfl, rfl⟩ := List.cons.inj has
        exact .inl ha'
      · obtain ⟨rfl, rfl⟩ := List.cons.inj has
        obtain ⟨⟨out, ha⟩, hbefore⟩ := List.forall_mem_cons.mp hbefore
        have h := ih.mpr ⟨before, a', after, rfl, hbefore, ha'⟩
        exact .inr ⟨out, ha, bind_eq_error.mpr (.inl h)⟩

theorem mapM_eq_error {f : α → Except ε β} {as : List α} {e : ε} (h : as.mapM f = .error e) :
    ∃ a ∈ as, f a = .error e := by
  obtain ⟨before, a, after, rfl, _, ha⟩ := mapM_eq_error_iff.mp h
  exact ⟨a, List.mem_append_right before (.head after), ha⟩

theorem eq_flatMap {f : List α → List β} {g : α → List β} (hnil : f [] = [])
    (hcons : ∀ a as, f (a :: as) = g a ++ f as) (as : List α) : f as = as.flatMap g := by
  induction as with
  | nil => exact hnil
  | cons a as ih => rw [hcons, ih, List.flatMap_cons]

theorem eq_map {f : List α → List β} {g : α → β} (hnil : f [] = [])
    (hcons : ∀ a as, f (a :: as) = g a :: f as) (as : List α) : f as = as.map g := by
  induction as with
  | nil => exact hnil
  | cons a as ih => rw [hcons, ih, List.map_cons]

theorem exists_mem_zip {R : α → β → Prop} {as : List α} {bs : List β} {a : α}
    (h : List.Forall₂ R as bs) (ha : a ∈ as) : ∃ b, (a, b) ∈ as.zip bs := by
  induction h with
  | nil => cases ha
  | @cons a' b as bs _ _ ih =>
    cases ha with
    | head => exact ⟨b, .head _⟩
    | tail _ ha =>
      obtain ⟨b', hb'⟩ := ih ha
      exact ⟨b', .tail _ hb'⟩

theorem exists_of_forall₂ {R : α → β → Prop} {as : List α} {bs : List β} {a : α}
    (h : List.Forall₂ R as bs) (ha : a ∈ as) : ∃ b, R a b := by
  obtain ⟨b, hzip⟩ := exists_mem_zip h ha
  exact ⟨b, List.forall₂_zip h hzip⟩

theorem exists_mem_of_forall₂ {R : α → β → Prop} {as : List α} {bs : List β} {b : β}
    (h : List.Forall₂ R as bs) (hb : b ∈ bs) : ∃ a ∈ as, R a b := by
  obtain ⟨a, hzip⟩ := exists_mem_zip h.flip hb
  exact ⟨a, (List.of_mem_zip hzip).2, List.forall₂_zip h.flip hzip⟩

theorem exists_forall₂ {R : α → β → Prop} {as : List α} (h : ∀ a ∈ as, ∃ b, R a b) :
    ∃ bs, List.Forall₂ R as bs := by
  induction as with
  | nil => exact ⟨[], .nil⟩
  | cons a as ih =>
    obtain ⟨b, hb⟩ := h a (by simp)
    obtain ⟨bs, hbs⟩ := ih fun a ha => h a (.tail _ ha)
    exact ⟨b :: bs, .cons hb hbs⟩

theorem forall₂_trans {γ : Type} {R : α → β → Prop} {S : β → γ → Prop} {T : α → γ → Prop}
    {as : List α} {bs : List β} {cs : List γ} (h : List.Forall₂ R as bs) (h' : List.Forall₂ S bs cs)
    (htrans : ∀ a ∈ as, ∀ b c, R a b → S b c → T a c) : List.Forall₂ T as cs := by
  induction h generalizing cs with
  | nil =>
    cases h'
    exact .nil
  | cons hab _ ih =>
    cases h' with
    | cons hbc h' =>
      exact .cons (htrans _ (.head _) _ _ hab hbc) (ih h' fun a ha => htrans a (.tail _ ha))

theorem forall₂_imp_of_mem {R S : α → β → Prop} {as : List α} {bs : List β}
    (h : List.Forall₂ R as bs) (himp : ∀ a ∈ as, ∀ b, R a b → S a b) : List.Forall₂ S as bs := by
  induction h with
  | nil => exact .nil
  | cons hab _ ih => exact .cons (himp _ (.head _) _ hab) (ih fun a ha => himp a (.tail _ ha))

theorem forall₂_iff_map_eq {γ : Type} {R : α → β → Prop} {view : α → γ} {view' : β → γ}
    {as : List α} {bs : List β} (h : ∀ a ∈ as, ∀ b ∈ bs, (R a b ↔ view a = view' b)) :
    List.Forall₂ R as bs ↔ as.map view = bs.map view' := by
  induction as generalizing bs with
  | nil => cases bs <;> simp
  | cons a as ih =>
    cases bs with
    | nil => simp
    | cons b bs =>
      have hrest := ih fun a' ha' b' hb' => h a' (.tail _ ha') b' (.tail _ hb')
      rw [List.forall₂_cons, List.map_cons, List.map_cons, List.cons.injEq,
        h a (.head _) b (.head _), hrest]

theorem forall₂_append_left {R : α → β → Prop} {as as' : List α} {bs : List β} :
    List.Forall₂ R (as ++ as') bs ↔
      ∃ cs cs', List.Forall₂ R as cs ∧ List.Forall₂ R as' cs' ∧ bs = cs ++ cs' := by
  constructor
  · induction as generalizing bs with
    | nil => exact fun h => ⟨[], bs, .nil, h, rfl⟩
    | cons a as ih =>
      intro h
      rw [List.cons_append, List.forall₂_cons_left_iff] at h
      obtain ⟨b, bs, hab, hrest, rfl⟩ := h
      obtain ⟨cs, cs', hcs, hcs', rfl⟩ := ih hrest
      exact ⟨b :: cs, cs', .cons hab hcs, hcs', rfl⟩
  · rintro ⟨cs, cs', h, h', rfl⟩
    exact List.rel_append h h'

theorem exists_first_of_forall₂ {R : α → β → Prop} {P E : α → Prop} {Q F : β → Prop}
    {as : List α} {bs : List β} (h : List.Forall₂ R as bs) (hbefore : ∀ a b, R a b → P a → Q b)
    (hfirst : ∀ a b, R a b → E a → F b) :
    (∃ before a after, as = before ++ a :: after ∧ (∀ a' ∈ before, P a') ∧ E a) →
      ∃ before b after, bs = before ++ b :: after ∧ (∀ b' ∈ before, Q b') ∧ F b := by
  rintro ⟨before, a, after, rfl, hP, hE⟩
  obtain ⟨before', rest, hbefore', hrest, rfl⟩ := forall₂_append_left.mp h
  obtain ⟨b, after', hab, _, rfl⟩ := List.forall₂_cons_left_iff.mp hrest
  refine ⟨before', b, after', rfl, fun b' hb' => ?_, hfirst a b hab hE⟩
  obtain ⟨a', ha', hR⟩ := exists_mem_of_forall₂ hbefore' hb'
  exact hbefore a' b' hR (hP a' ha')

theorem forall₂_congr_left {γ : Type} {R : α → β → Prop} {P : α → γ → Prop} {Q : β → γ → Prop}
    {as : List α} {bs : List β} {cs : List γ} (h : List.Forall₂ R as bs)
    (hiff : ∀ a b c, R a b → (P a c ↔ Q b c)) :
    List.Forall₂ P as cs ↔ List.Forall₂ Q bs cs := by
  induction h generalizing cs with
  | nil => simp
  | cons hab _ ih =>
    rw [List.forall₂_cons_left_iff, List.forall₂_cons_left_iff]
    simp only [hiff _ _ _ hab, ih]

end NestedViews
