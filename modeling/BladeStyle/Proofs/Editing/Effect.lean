import BladeStyle.Editing.Engine
import BladeStyle.Proofs.Style.Proper

/-!
# What an edit does

An edit that is not refused fills a slot anew, inserts a repeat, removes one or writes the
comment of the node, and does nothing else.  So it keeps the category of the node and leaves
a proper node proper, and what every edit keeps of the nodes holds everywhere in a tree after
a mutation, which reads the node at its path and replaces it.
-/

namespace BladeStyle

namespace Edit

variable {e : Edit} {s t : Style}

/-- The style that an edit carries, if it carries one, satisfies `P`. -/
def Carries (P : Style → Prop) : Edit → Prop
  | setStyle _ s | addParam _ (.style s) => P s
  | setNumber .. | setBits .. | setBool .. | detachStyle _ | addParam _ (.int _) | removeParam _
  | setComment _ => True

/-- The four things that an edit can do to a node.  A child that it puts into a slot is the
one that it carries. -/
inductive Effect (e : Edit) (s : Style) : Style → Prop where
  | slot {i : Nat} {p : Param Style} {slot : Slot Style} (hp : s.params[i]? = some p)
      (htype : slot.category? = p.slot.category?) (hfits : slot.Fits p.kind)
      (hchild : ∀ c, slot = .child c → e = .setStyle i c) :
      Effect e s { s with params := s.params.set i { p with slot } }
  | insert {i : Nat} {value : Value} {t : Style} (hvalue : e = .addParam i value)
      (h : s.insertRepeat i value = .ok t) : Effect e s t
  | remove {i : Nat} {p : Param Style} {t : Style} (h : s.removeRepeat i = .ok (p, t)) :
      Effect e s t
  | comment (comment : String) : Effect e s { s with comment }

theorem detachStyle_eq_ok {i : Nat} :
  (detachStyle i).apply s = .ok t
    ↔ ∃ p, s.params[i]? = some p ∧ p.isLiteral = false
        ∧ t = { s with params := s.params.set i { p with slot := .empty } }
  := by
  constructor
  · intro h
    obtain ⟨p, q, hp, hq, rfl⟩ := Style.updateParam_eq_ok.mp h
    split at hq
    · cases hq
    · next hliteral =>
      obtain rfl := Except.ok.inj hq
      have hfalse : p.isLiteral = false := eq_false_of_ne_true hliteral
      exact ⟨p, hp, hfalse, by rw [Param.detached_eq hfalse]⟩
  · rintro ⟨p, hp, hliteral, rfl⟩
    apply Style.updateParam_eq_ok.mpr
    refine ⟨p, _, hp, ?_, rfl⟩
    rw [hliteral, if_neg Bool.false_ne_true, Param.detached_eq hliteral]

theorem effect_of_apply (h : e.apply s = .ok t) :
  e.Effect s t
  := by
  cases e with
  | setNumber i value =>
    obtain ⟨p, q, hp, hq, rfl⟩ := Style.updateParam_eq_ok.mp h
    obtain ⟨n, hslot, rfl⟩ := Param.storeNumber_eq_ok.mp hq
    apply Effect.slot hp
    · rw [hslot]
      rfl
    · apply nearestNumber_mem
    · nofun
  | setBits i value =>
    obtain ⟨p, q, hp, hq, rfl⟩ := Style.updateParam_eq_ok.mp h
    obtain ⟨b, hslot, rfl⟩ := Param.storeBits_eq_ok.mp hq
    apply Effect.slot hp
    · rw [hslot]
      rfl
    · trivial
    · nofun
  | setBool i value =>
    obtain ⟨p, q, hp, hq, rfl⟩ := Style.updateParam_eq_ok.mp h
    obtain ⟨b, hslot, rfl⟩ := Param.storeBool_eq_ok.mp hq
    apply Effect.slot hp
    · rw [hslot]
      rfl
    · trivial
    · nofun
  | setStyle i style =>
    obtain ⟨p, q, hp, hq, rfl⟩ := Style.updateParam_eq_ok.mp h
    obtain ⟨hliteral, haccepts, rfl⟩ := Param.fill_eq_ok hq
    apply Effect.slot hp
    · rw [Param.isLiteral_eq_false.mp hliteral]
      rfl
    · exact haccepts
    · intro c hc
      rw [Slot.child.inj hc]
  | detachStyle i =>
    obtain ⟨p, hp, hliteral, rfl⟩ := detachStyle_eq_ok.mp h
    apply Effect.slot hp
    · rw [Param.isLiteral_eq_false.mp hliteral]
      rfl
    · trivial
    · nofun
  | addParam i value => apply Effect.insert rfl h
  | removeParam i =>
    obtain ⟨⟨p, u⟩, hu, rfl⟩ := exists_of_map_eq_ok h
    apply Effect.remove hu
  | setComment comment =>
    obtain rfl := Except.ok.inj h
    apply Effect.comment

/-- An edit keeps the category of a node. -/
theorem category_apply (h : e.apply s = .ok t) :
  t.category = s.category
  := by
  cases effect_of_apply h with
  | slot | comment => rfl
  | insert _ h =>
    obtain ⟨-, -, -, -, rfl⟩ := Style.insertRepeat_eq_ok.mp h
    rfl
  | remove h =>
    obtain ⟨-, -, -, rfl⟩ := Style.removeRepeat_eq_ok.mp h
    rfl

namespace Effect

/-- An edit leaves a proper node proper. -/
theorem properNode (h : e.Effect s t) (hs : s.ProperNode) :
  t.ProperNode
  := by
  cases h with
  | slot hp htype hfits => apply hs.setSlot hp htype hfits
  | insert _ h => apply hs.insertRepeat h
  | remove h => apply hs.removeRepeat h
  | comment comment => apply hs.withComment

/-- A child after an edit is one from before or the style that the edit carries. -/
theorem child {P : Style → Prop} (h : e.Effect s t) (he : e.Carries P)
    (hs : ∀ p ∈ s.params, ∀ c, p.slot = .child c → P c) :
  ∀ p ∈ t.params, ∀ c, p.slot = .child c → P c
  := by
  intro q hq c hc
  cases h with
  | slot hp htype hfits hchild =>
    rcases List.mem_or_eq_of_mem_set hq with hmem | rfl
    · apply hs q hmem c hc
    · obtain rfl := hchild c hc
      exact he
  | insert hvalue h =>
    obtain ⟨-, hmax, p, hp, rfl⟩ := Style.insertRepeat_eq_ok.mp h
    rcases (List.mem_insertIdx hmax).mp hq with rfl | hmem
    · obtain ⟨tail, -, -, hanother⟩ := Style.nextRepeat_eq_ok.mp hp
      obtain rfl := Param.child_of_store hanother hc
      obtain rfl := hvalue
      exact he
    · apply hs q hmem c hc
  | remove h =>
    obtain ⟨-, -, -, rfl⟩ := Style.removeRepeat_eq_ok.mp h
    apply hs q (List.mem_of_mem_eraseIdx hq) c hc
  | comment => apply hs q hq c hc

end Effect

end Edit

namespace Mutation

/-- The tree after a mutation. -/
def apply (m : Mutation) (root : Style) : Except EditError Style :=
  match root.at? m.path with
  | none => .error (.noNode m.path)
  | some node =>
    match m.edit.apply node with
    | .error e => .error (.param m.path node.name e)
    | .ok t => .ok (root.replaceAt m.path t)

variable {m : Mutation} {root tree : Style}

theorem apply_eq_ok :
  m.apply root = .ok tree
    ↔ ∃ node t, root.at? m.path = some node ∧ m.edit.apply node = .ok t
        ∧ tree = root.replaceAt m.path t
  := by
  rw [apply]
  cases root.at? m.path with
  | none => simp
  | some node =>
    cases h : m.edit.apply node with
    | error e => simp [h]
    | ok t => simp [h, eq_comm]

/-- A statement about proper nodes that every edit keeps holds everywhere after a mutation,
if it held everywhere before it and in the style that the mutation carries, if any. -/
theorem everywhere_apply {P : Style → Prop} (hproper : ∀ {s}, P s → s.ProperNode)
    (hP : ∀ {e s t}, P s → Edit.Effect e s t → P t) (hroot : root.Everywhere P)
    (hm : m.edit.Carries (Style.Everywhere P)) (h : m.apply root = .ok tree) :
  tree.Everywhere P
  := by
  obtain ⟨node, t, hnode, ht, rfl⟩ := apply_eq_ok.mp h
  have hbefore := hroot.at? hnode
  have heffect := Edit.effect_of_apply ht
  have hafter : t.Everywhere P := by
    apply Style.Everywhere.node (hP hbefore.here heffect)
    apply heffect.child hm
    exact fun p hp c hc => hbefore.child hp hc
  refine (hroot.replaceAt ?_ hnode hafter (Edit.category_apply ht)).1
  -- a child that takes the place of another one is like a style that is set
  intro s index p c d hs hp hc hcategory
  apply hP (e := .setStyle index d) hs
  apply Edit.Effect.slot hp
  · rw [hc]
    rfl
  · have hfits := (hproper hs).fits p (List.mem_of_getElem? hp)
    rw [hc, Slot.Fits, ← hcategory] at hfits
    exact hfits
  · intro c' hc'
    rw [Slot.child.inj hc']

/-- A mutation that carries a proper style, if any, leaves a proper tree proper. -/
theorem proper_apply (hroot : root.Proper) (hm : m.edit.Carries Style.Proper)
    (h : m.apply root = .ok tree) :
  tree.Proper
  := everywhere_apply id (fun hs heffect => heffect.properNode hs) hroot hm h

end Mutation

end BladeStyle
