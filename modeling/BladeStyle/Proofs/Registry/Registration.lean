import BladeStyle.Proofs.Registry.Entries
import BladeStyle.Registry.Builtin
import Mathlib.Data.Set.Card
import Mathlib.Logic.Function.Basic

/-!
# Registration

A registry answers as a map from sections and names to templates in which what is registered
last under a key stays.  A name is answered by the first section that holds it, the lists of
names are strictly increasing, and the length is the number of keys.  Every answer is read off
the map, so it is enough to follow the map through a run of registrations.
-/

namespace BladeStyle

/-! ### The order of lookup -/

namespace Section

theorem pairwise_all :
  all.Pairwise fun x y => x.position < y.position
  := by
  decide

/-- The sections before `x` in the order of lookup are those of a smaller position. -/
theorem mem_left_iff {before after : List Section} {x y : Section}
    (h : all = before ++ x :: after) :
  y ∈ before ↔ y.position < x.position
  := by
  have hpairwise := pairwise_all
  rw [h, List.pairwise_append, List.pairwise_cons] at hpairwise
  obtain ⟨-, ⟨hafter, -⟩, hbefore⟩ := hpairwise
  constructor
  · intro hy
    apply hbefore y hy x List.mem_cons_self
  · intro hlt
    have hy := mem_all y
    rw [h, List.mem_append, List.mem_cons] at hy
    rcases hy with hy | rfl | hy
    · exact hy
    · exact absurd hlt (Nat.lt_irrefl _)
    · exact absurd hlt (Nat.lt_asymm (hafter y hy))

end Section

namespace Registry

variable {r : Registry} {home : Section} {name : String} {template : Style}

/-- The first section that holds a name answers for it. -/
theorem find?_eq_some_iff :
  r.find? name = some (home, template)
    ↔ r.get? home name = some template
        ∧ ∀ home' : Section, home'.position < home.position → r.get? home' name = none
  := by
  rw [find?, List.findSome?_eq_some_iff]
  constructor
  · rintro ⟨before, x, after, hall, hx, hbefore⟩
    obtain ⟨t, ht, hpair⟩ := Option.map_eq_some_iff.mp hx
    obtain ⟨rfl, rfl⟩ := Prod.mk.inj hpair
    use ht
    intro home' hlt
    apply Option.map_eq_none_iff.mp (hbefore home' ((Section.mem_left_iff hall).mpr hlt))
  · rintro ⟨hget, hfirst⟩
    obtain ⟨before, after, hall⟩ := List.append_of_mem (Section.mem_all home)
    refine ⟨before, home, after, hall, ?_, ?_⟩
    · rw [hget]
      rfl
    · intro home' hmem
      rw [hfirst home' ((Section.mem_left_iff hall).mp hmem)]
      rfl

/-- A name is not found if no section has it. -/
theorem find?_eq_none_iff :
  r.find? name = none ↔ ∀ home, r.get? home name = none
  := by
  simp [find?, List.findSome?_eq_none_iff, Section.mem_all]

/-- A name that is answered is not looked for in the later sections. -/
theorem find?_insert_of_later (h : r.home? template.name = some home) {later : Section}
    (hlater : home.position < later.position) (name : String) :
  (r.insert later template).find? name = r.find? name
  := by
  have hget : ∀ x : Section, x ≠ later ∨ template.name ≠ name →
      (r.insert later template).get? x name = r.get? x name := by
    intro x hx
    rw [get?_insert, if_neg]
    rintro ⟨rfl, hname⟩
    rcases hx with hx | hx
    · exact hx rfl
    · exact hx hname
  by_cases hname : template.name = name
  · subst hname
    obtain ⟨⟨home', t⟩, hfind, hhome⟩ := Option.map_eq_some_iff.mp h
    obtain rfl : home' = home := hhome
    obtain ⟨hgets, hfirst⟩ := find?_eq_some_iff.mp hfind
    rw [hfind]
    apply find?_eq_some_iff.mpr
    constructor
    · rw [hget home' (Or.inl (by rintro rfl; exact Nat.lt_irrefl _ hlater)), hgets]
    · intro x hx
      rw [hget x (Or.inl (by rintro rfl; exact Nat.lt_asymm hx hlater)), hfirst x hx]
  · simp only [find?, fun x => hget x (Or.inr hname)]

/-! ### Lists of names -/

/-- The names of a section are listed in order, each of them once. -/
theorem pairwise_names (r : Registry) (home : Section) :
  (r.names home).Pairwise (· < ·)
  := by
  apply List.pairwise_map.mpr
  apply (r.sorted.filter _).imp_of_mem
  intro e f he hf h
  have hhome : e.home = f.home := by
    rw [of_decide_eq_true (List.mem_filter.mp he).2, of_decide_eq_true (List.mem_filter.mp hf).2]
  rcases h with hposition | ⟨-, hname⟩
  · rw [hhome] at hposition
    exact absurd hposition (Nat.lt_irrefl _)
  · exact hname

/-- The names that are listed for a section are those under which a template is found in
it. -/
theorem mem_names_iff :
  name ∈ r.names home ↔ (r.get? home name).isSome = true
  := by
  simp [names, isSome_get?, Entry.key_eq_iff, and_assoc]

/-- The entries of a name in any section. -/
def holders (r : Registry) (name : String) : List Entry := r.entries.filter (·.name = name)

/-- The holders of a name are the entries with that name. -/
theorem mem_holders_iff {e : Entry} :
  e ∈ r.holders name ↔ e ∈ r.entries ∧ e.name = name
  := by
  simp [holders]

theorem count_names :
  (r.entries.map Entry.name).count name = (r.holders name).length
  := by
  rw [List.count_eq_countP, List.countP_map, List.countP_eq_length_filter, holders]
  rfl

/-- Several entries of a name are in several sections. -/
theorem one_lt_length_holders_iff :
  1 < (r.holders name).length
    ↔ ∃ home home', home ≠ home' ∧ (r.get? home name).isSome = true
        ∧ (r.get? home' name).isSome = true
  := by
  constructor
  · intro h
    match hholders : r.holders name, h with
    | e :: f :: rest, _ =>
      have hpairwise : (e :: f :: rest).Pairwise Entry.Before :=
        hholders ▸ r.sorted.filter _
      have hbefore := (List.pairwise_cons.mp hpairwise).1 f List.mem_cons_self
      obtain ⟨he, hename⟩ := mem_holders_iff.mp (hholders ▸ List.mem_cons_self)
      obtain ⟨hf, hfname⟩ := mem_holders_iff.mp
        (hholders ▸ List.mem_cons_of_mem e (List.mem_cons_self (l := rest)))
      use e.home, f.home
      refine ⟨?_, ?_, ?_⟩
      · intro hhome
        apply hbefore.key_ne
        rw [Entry.key, Entry.key, hhome, hename, hfname]
      · apply isSome_get?.mpr ⟨e, he, Entry.key_eq_iff.mpr ⟨rfl, hename⟩⟩
      · apply isSome_get?.mpr ⟨f, hf, Entry.key_eq_iff.mpr ⟨rfl, hfname⟩⟩
  · rintro ⟨home, home', hne, hhome, hhome'⟩
    obtain ⟨e, he, hekey⟩ := isSome_get?.mp hhome
    obtain ⟨f, hf, hfkey⟩ := isSome_get?.mp hhome'
    obtain ⟨rfl, hename⟩ := Entry.key_eq_iff.mp hekey
    obtain ⟨rfl, hfname⟩ := Entry.key_eq_iff.mp hfkey
    have heholder := mem_holders_iff.mpr ⟨he, hename⟩
    have hfholder := mem_holders_iff.mpr ⟨hf, hfname⟩
    match hholders : r.holders name with
    | [] =>
      rw [hholders] at heholder
      cases heholder
    | [g] =>
      rw [hholders, List.mem_singleton] at heholder hfholder
      exact absurd (by rw [heholder, hfholder]) hne
    | _ :: _ :: _ => simp

/-- A name is shadowed if two sections have it. -/
theorem mem_shadowed_iff :
  name ∈ r.shadowed
    ↔ ∃ home home', home ≠ home' ∧ (r.get? home name).isSome = true
        ∧ (r.get? home' name).isSome = true
  := by
  rw [← one_lt_length_holders_iff, ← count_names, shadowed, List.mem_mergeSort, List.mem_filter,
    List.mem_eraseDups, decide_eq_true_eq, and_iff_right_iff_imp]
  intro h
  apply List.count_pos_iff.mp (Nat.lt_of_succ_lt h)

theorem nodup_eraseDups {α : Type} [DecidableEq α] (l : List α) :
  l.eraseDups.Nodup
  := by
  match l with
  | [] => simp
  | a :: l =>
    have hrest := nodup_eraseDups (l.filter fun b => !b == a)
    rw [List.eraseDups_cons, List.nodup_cons]
    use by simp
termination_by l.length
decreasing_by exact Nat.lt_succ_of_le (List.length_filter_le _ _)

/-- The shadowed names are listed in order, each of them once. -/
theorem pairwise_shadowed (r : Registry) :
  r.shadowed.Pairwise (· < ·)
  := by
  have hnodup : r.shadowed.Nodup := by
    apply (List.mergeSort_perm _ _).nodup_iff.mpr
    apply (nodup_eraseDups _).filter
  have hle : r.shadowed.Pairwise (· ≤ ·) := by
    apply (List.pairwise_mergeSort _ _ _).imp of_decide_eq_true
    · intro a b c hab hbc
      exact decide_eq_true (String.le_trans (of_decide_eq_true hab) (of_decide_eq_true hbc))
    · intro a b
      simpa using String.le_total a b
  apply (hle.and hnodup).imp
  rintro a b ⟨hab, hne⟩
  by_contra hlt
  exact hne (String.le_antisymm hab (String.not_lt.mp hlt))

/-! ### Runs of registrations -/

/-- What is held under every section and name. -/
abbrev Holdings := Section × String → Option Style

/-- The map with a template written under its section and name. -/
def Holdings.write (m : Holdings) (home : Section) (template : Style) : Holdings :=
  Function.update m (home, template.name) (some template)

/-- Writes templates one after the other, so that the last one under a key stays.  Also gives
what each of them replaced. -/
def Holdings.writeAll (m : Holdings) : List (Section × Style) → List (Option Style) × Holdings
  | [] => ([], m)
  | (home, template) :: calls =>
    let (replaced, m') := (m.write home template).writeAll calls
    (m (home, template.name) :: replaced, m')

/-- Registers templates one after the other.  Also gives what each of them replaced. -/
def registerAll (r : Registry) : List (Section × Style) → List (Option Style) × Registry
  | [] => ([], r)
  | (home, template) :: calls =>
    let (replaced, r') := r.register home template
    let (others, r'') := r'.registerAll calls
    (replaced :: others, r'')

/-- A registry that answers as a map tells.  A name is answered by the first section that
holds it. -/
structure Answers (m : Holdings) (r : Registry) : Prop where
  get? : ∀ home name, r.get? home name = m (home, name)
  replaced : ∀ home template, (r.register home template).1 = m (home, template.name)
  first : ∀ home name template, m (home, name) = some template →
    (∀ home' : Section, home'.position < home.position → m (home', name) = none) →
    r.template? name = some template ∧ r.home? name = some home
  unknown : ∀ name, (∀ home, m (home, name) = none) →
    r.template? name = none ∧ r.home? name = none
  names : ∀ home, (r.names home).Pairwise (· < ·)
    ∧ ∀ name, name ∈ r.names home ↔ (m (home, name)).isSome = true
  shadowed : r.shadowed.Pairwise (· < ·)
    ∧ ∀ name, name ∈ r.shadowed ↔ ∃ home home', home ≠ home'
      ∧ (m (home, name)).isSome = true ∧ (m (home', name)).isSome = true
  length : Set.encard {key | (m key).isSome = true} = r.length
  isEmpty : r.isEmpty = true ↔ r.length = 0

/-- Every answer of a registry is read off what it holds. -/
theorem answers_of_get? {m : Holdings} (h : ∀ home name, r.get? home name = m (home, name)) :
  r.Answers m
  where
  get? := h
  replaced home template := h home template.name
  first home name template hm hfirst := by
    simp only [← h] at hm hfirst
    rw [template?, home?, find?_eq_some_iff.mpr ⟨hm, hfirst⟩]
    exact ⟨rfl, rfl⟩
  unknown name hm := by
    simp only [← h] at hm
    rw [template?, home?, find?_eq_none_iff.mpr hm]
    exact ⟨rfl, rfl⟩
  names home := by
    use r.pairwise_names home
    intro name
    rw [mem_names_iff, h]
  shadowed := by
    use r.pairwise_shadowed
    intro name
    simp only [mem_shadowed_iff, h]
  length := by
    have hkeys : {key | (m key).isSome = true}
        = ((r.entries.map Entry.key).toFinset : Set (Section × String)) := by
      ext ⟨home, name⟩
      rw [Set.mem_ofPred_eq, ← h, isSome_get?, Finset.mem_coe, List.mem_toFinset, List.mem_map]
    rw [hkeys, Set.encard_coe_eq_coe_finsetCard, List.toFinset_card_of_nodup r.nodup_keys,
      List.length_map, length]
  isEmpty := by
    rw [Registry.isEmpty, length, List.isEmpty_iff_length_eq_zero]

/-- A registration writes to what a registry holds. -/
theorem get?_register {m : Holdings} (h : ∀ home name, r.get? home name = m (home, name))
    (home : Section) (template : Style) (home' : Section) (name : String) :
  (r.register home template).2.get? home' name = m.write home template (home', name)
  := by
  rw [register, get?_insert, h, Holdings.write, Function.update_apply]
  simp only [Prod.mk.injEq, eq_comm]

/-- A run of registrations replaces what the map replaces, and holds in the end what the map
holds; by induction on the run. -/
theorem registerAll_eq {m : Holdings} (h : ∀ home name, r.get? home name = m (home, name))
    (calls : List (Section × Style)) :
  (r.registerAll calls).1 = (m.writeAll calls).1
    ∧ ∀ home name, (r.registerAll calls).2.get? home name = (m.writeAll calls).2 (home, name)
  := by
  induction calls generalizing r m with
  | nil => exact ⟨rfl, h⟩
  | cons call calls ih =>
    obtain ⟨home, template⟩ := call
    obtain ⟨hreplaced, hget⟩ := ih (get?_register h home template)
    constructor
    · apply congrArg₂ List.cons (h home template.name) hreplaced
    · exact hget

/-- Templates with different keys replace the same and leave the same registry in either
order. -/
theorem registerAll_pair (r : Registry) {home home' : Section} {template template' : Style}
    (h : (home, template.name) ≠ (home', template'.name)) :
  (r.registerAll [(home, template), (home', template')]).1
      = (r.registerAll [(home', template'), (home, template)]).1.reverse
    ∧ (r.registerAll [(home, template), (home', template')]).2
      = (r.registerAll [(home', template'), (home, template)]).2
  := by
  have hfirst : ¬ (home = home' ∧ template.name = template'.name) := fun hkey =>
    h (Prod.ext_iff.mpr hkey)
  have hsecond : ¬ (home' = home ∧ template'.name = template.name) := fun hkey =>
    h (Prod.ext_iff.mpr hkey).symm
  constructor
  · simp [registerAll, register, get?_insert, hfirst, hsecond]
  · apply insert_comm r h

/-- Registrations follow a map in which the last template under a key stays: they replace what
the map replaces, and the registry answers as the map tells.  Hence registrations under
different keys can be exchanged, and one in a later section than the one that answers for the
name changes no lookup. -/
theorem registrations_follow_map (calls : List (Section × Style)) :
  let written := Holdings.writeAll (fun _ => none) calls
  let run := empty.registerAll calls
  run.1 = written.1
    ∧ run.2.Answers written.2
    ∧ (∀ home home' template template', (home, template.name) ≠ (home', template'.name) →
      (run.2.registerAll [(home, template), (home', template')]).1
          = (run.2.registerAll [(home', template'), (home, template)]).1.reverse
        ∧ (run.2.registerAll [(home, template), (home', template')]).2
          = (run.2.registerAll [(home', template'), (home, template)]).2)
    ∧ ∀ home later template, run.2.home? template.name = some home →
      home.position < later.position →
      ∀ name, (run.2.register later template).2.template? name = run.2.template? name
        ∧ (run.2.register later template).2.home? name = run.2.home? name
  := by
  obtain ⟨hreplaced, hget⟩ := registerAll_eq (m := fun _ => none) get?_empty calls
  refine ⟨hreplaced, answers_of_get? hget, ?_, ?_⟩
  · intro home home' template template' h
    apply registerAll_pair _ h
  · intro home later template h hlater name
    have hfind := find?_insert_of_later h hlater name
    simp only [register, template?, home?, hfind, and_self]

/-- The function `Int` in two versions, a wrapper and a colour of the same name, and another
colour. -/
def namesakes : List (Section × Style) :=
  [(.wrapper, Builtin.bare "Int" .wrapper), (.color, Builtin.bare "Int" .color),
    (.function, Builtin.int 5), (.color, Builtin.bare "Red" .color), (.function, Builtin.int 7)]

theorem registrations_follow_map_namesakes :
  (empty.registerAll namesakes).1 = [none, none, none, none, some (Builtin.int 5)]
    ∧ (empty.registerAll namesakes).2.template? "Int" = some (Builtin.int 7)
    ∧ (empty.registerAll namesakes).2.home? "Int" = some .function
    ∧ "Int" ∈ (empty.registerAll namesakes).2.shadowed
    ∧ ((empty.registerAll namesakes).2.register .layer (Builtin.bare "Int" .layer)).2.home? "Int"
      = some .function
  := by
  obtain ⟨hreplaced, hanswers, -, hlater⟩ := registrations_follow_map namesakes
  have hint := hanswers.first .function "Int" (Builtin.int 7) rfl (by simp [Section.position])
  refine ⟨hreplaced.trans rfl, hint.1, hint.2, ?_, ?_⟩
  · apply (hanswers.shadowed.2 "Int").mpr
    use .color, .wrapper
    decide
  · rw [(hlater .function .layer (Builtin.bare "Int" .layer) hint.2 (by decide) "Int").2]
    exact hint.2

end Registry

end BladeStyle
