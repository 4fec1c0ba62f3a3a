import BladeStyle.Registry
import Mathlib.Data.List.Nodup

/-!
# Sorted entries

An entry that is put into its place is found under its section and its name, and every other
key is answered as before.  No two entries have the same key, and their order is strict, so
two registries that answer alike are equal, and the order in which entries with different
keys were put into their places cannot be seen.
-/

namespace BladeStyle

namespace Entry

/-- The section and the name under which an entry is found. -/
def key (e : Entry) : Section × String := (e.home, e.name)

theorem key_eq_iff {e : Entry} {home : Section} {name : String} :
  e.key = (home, name) ↔ e.home = home ∧ e.name = name
  := Prod.ext_iff

theorem Before.key_ne {e f : Entry} (h : e.Before f) :
  e.key ≠ f.key
  := by
  intro hkey
  obtain ⟨hhome, hname⟩ := key_eq_iff.mp hkey
  rw [Before, hhome, hname] at h
  apply Before.irrefl f h

/-- Under its own key the new entry is found, under any other key what was found before. -/
theorem find?_insert (e : Entry) (fs : List Entry) (home : Section) (name : String) :
  (insert e fs).find? (fun f => f.home = home ∧ f.name = name)
    = if e.home = home ∧ e.name = name then some e
      else fs.find? fun f => f.home = home ∧ f.name = name
  := by
  induction fs with
  | nil => by_cases he : e.home = home ∧ e.name = name <;> simp [insert, he]
  | cons f fs ih =>
    rw [insert]
    split
    case isTrue hef => by_cases he : e.home = home ∧ e.name = name <;> simp [he]
    case isFalse hef =>
      split
      case isTrue hfe =>
        rw [List.find?_cons, List.find?_cons, ih]
        by_cases hf : f.home = home ∧ f.name = name
        · have he : ¬ (e.home = home ∧ e.name = name) := fun he =>
            hfe.key_ne ((key_eq_iff.mpr hf).trans (key_eq_iff.mpr he).symm)
          simp [hf, he]
        · simp [hf]
      case isFalse hfe =>
        -- the entry takes the place of one with the same key
        obtain ⟨hhome, hname⟩ := eq_of_not_before hef hfe
        by_cases he : e.home = home ∧ e.name = name
        · simp [he]
        · simp [← hhome, ← hname, he]

end Entry

namespace Registry

variable {r r' : Registry}

theorem get?_empty (home : Section) (name : String) :
  empty.get? home name = none
  := rfl

theorem get?_insert (r : Registry) (home home' : Section) (template : Style) (name : String) :
  (r.insert home template).get? home' name
    = if home = home' ∧ template.name = name then some template else r.get? home' name
  := by
  rw [get?, insert, Entry.find?_insert, get?, apply_ite (Option.map Entry.template)]
  rfl

theorem nodup_keys (r : Registry) :
  (r.entries.map Entry.key).Nodup
  := List.pairwise_map.mpr (r.sorted.imp Entry.Before.key_ne)

theorem mem_entries_iff {e : Entry} :
  e ∈ r.entries ↔ r.get? e.home e.name = some e.template
  := by
  constructor
  · intro he
    rw [get?, Option.map_eq_some_iff]
    cases hfind : r.entries.find? fun f => f.home = e.home ∧ f.name = e.name with
    | none =>
      have hnone := List.find?_eq_none.mp hfind e he
      simp at hnone
    | some f =>
      have htest := List.find?_some hfind
      simp only [Bool.decide_and, Bool.and_eq_true, decide_eq_true_eq] at htest
      have hf := List.mem_of_find?_eq_some hfind
      obtain rfl := List.inj_on_of_nodup_map r.nodup_keys hf he (Entry.key_eq_iff.mpr htest)
      exact ⟨f, rfl, rfl⟩
  · intro h
    obtain ⟨f, hfind, htemplate⟩ := Option.map_eq_some_iff.mp h
    have htest := List.find?_some hfind
    simp only [Bool.decide_and, Bool.and_eq_true, decide_eq_true_eq] at htest
    have hf := List.mem_of_find?_eq_some hfind
    obtain ⟨home, template⟩ := f
    obtain ⟨rfl, -⟩ := htest
    obtain rfl := htemplate
    exact hf

/-- A key is answered exactly if some entry has it. -/
theorem isSome_get? {home : Section} {name : String} :
  (r.get? home name).isSome = true ↔ ∃ e ∈ r.entries, e.key = (home, name)
  := by
  simp [get?, List.find?_isSome, Entry.key_eq_iff]

/-- Registries that answer alike are equal. -/
theorem eq_of_get?_eq (h : ∀ home name, r.get? home name = r'.get? home name) :
  r = r'
  := by
  have hperm : r.entries.Perm r'.entries := by
    apply (List.perm_ext_iff_of_nodup r.nodup_keys.of_map r'.nodup_keys.of_map).mpr
    intro e
    rw [mem_entries_iff, mem_entries_iff, h]
  have hentries : r.entries = r'.entries := by
    apply List.Perm.eq_of_pairwise _ r.sorted r'.sorted hperm
    intro e f _ _ hef hfe
    exact absurd (hef.trans hfe) (Entry.Before.irrefl e)
  obtain ⟨entries, sorted⟩ := r
  obtain rfl := hentries
  rfl

/-- Templates with different keys can be registered in any order. -/
theorem insert_comm (r : Registry) {home home' : Section} {template template' : Style}
    (h : (home, template.name) ≠ (home', template'.name)) :
  (r.insert home template).insert home' template'
    = (r.insert home' template').insert home template
  := by
  apply eq_of_get?_eq
  intro home'' name
  simp only [get?_insert]
  split
  case isTrue hkey' =>
    split
    case isTrue hkey =>
      obtain ⟨rfl, rfl⟩ := hkey
      obtain ⟨rfl, hname⟩ := hkey'
      exact absurd (by rw [hname]) h
    case isFalse => rfl
  case isFalse => rfl

end Registry

end BladeStyle
