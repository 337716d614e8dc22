import HttpdConf.Proofs.Assignments
import HttpdConf.Proofs.Exclusion

/-!
# Knowing more

A policy that knows of more modules and parameters, and takes fewer blocks to be conditional, holds
no block inactive that was active. Searches that exclude inactive blocks then skip fewer blocks, so
they find what they found and may find more in between, and what was in force stays in force.

## Main definitions

* `Policy.Within`: a policy that knows no more than another one
* `Tree.withPolicy`: a tree under another policy

## Main results

* `Policy.Within.isActive`: what is active stays active when more is known
* `Tree.map_descendants_sublist`: a walk that skips fewer blocks meets what it met, in order
* `Workspace.opened_withPolicy`: a document is the same tree under each policy
* `Workspace.openDocument_within`: knowing more hides nothing in a document
-/

namespace HttpdConf

variable {p q r : Policy} {w w' : Workspace} {t u : Tree} {g : Core → Core} {name : String}
  {parameters : List String} {document : Fragment}

/-! ## Policies -/

/-- A policy knows no more than another one: it knows of no other modules and parameters, and every
block that is conditional for the other one is so for it. -/
structure Policy.Within (p q : Policy) : Prop where
  loadedModules : p.loadedModules ⊆ q.loadedModules
  defines : p.defines ⊆ q.defines
  conditionalBlocks : q.conditionalBlocks ⊆ p.conditionalBlocks

/-- A set with a new text has the texts it had. -/
theorem mem_insertText_of_mem {s m : String} {set : List String} (h : m ∈ set) :
    m ∈ insertText s set := by
  induction set with
  | nil => simp at h
  | cons x set ih =>
    rw [insertText]
    rcases List.mem_cons.1 h with rfl | h
    · split <;> simp
    · split <;> simp [h, ih h]

namespace Policy

theorem Within.trans (h : p.Within q) (h' : q.Within r) : p.Within r where
  loadedModules := fun _ hm => h'.loadedModules (h.loadedModules hm)
  defines := fun _ hd => h'.defines (h.defines hd)
  conditionalBlocks := fun _ hb => h.conditionalBlocks (h'.conditionalBlocks hb)

theorem within_withModule (p : Policy) (m : String) : p.Within (p.withModule m) where
  loadedModules := fun _ => mem_insertText_of_mem
  defines := fun _ => id
  conditionalBlocks := fun _ => id

theorem within_withDefine (p : Policy) (d : String) : p.Within (p.withDefine d) where
  loadedModules := fun _ => id
  defines := fun _ => mem_insertText_of_mem
  conditionalBlocks := fun _ => id

namespace Within

variable (h : p.Within q)
include h

theorem isConditional (hq : q.isConditional name = true) : p.isConditional name = true := by
  obtain ⟨b, hb, hname⟩ := List.any_eq_true.1 hq
  exact List.any_eq_true.2 ⟨b, h.conditionalBlocks hb, hname⟩

/-- A condition that is known to hold stays so when more is known. -/
theorem knows {condition : List Char} (hp : p.knows name condition = true) :
    q.knows name condition = true := by
  unfold Policy.knows at hp ⊢
  split at hp
  · -- a negated condition is never known to hold
    simp at hp
  · rename_i hnegated
    rw [if_neg hnegated]
    split at hp
    · rename_i hname
      rw [if_pos hname]
      obtain ⟨m, hm, hmodule⟩ := List.any_eq_true.1 hp
      exact List.any_eq_true.2 ⟨m, h.loadedModules hm, hmodule⟩
    · rename_i hname
      rw [if_neg hname]
      split at hp
      · rename_i hdefine
        rw [if_pos hdefine]
        exact List.contains_iff_mem.2 (h.defines (List.contains_iff_mem.1 hp))
      · simp at hp

/-- What is active stays active when more is known. -/
theorem isActive (hp : p.isActive name parameters = true) :
    q.isActive name parameters = true := by
  cases hq : q.isConditional name with
  | false => exact isActive_of_not_isConditional hq
  | true =>
    -- the block is conditional for both, so its one condition is known to hold
    unfold Policy.isActive at hp ⊢
    rw [if_pos (h.isConditional hq)] at hp
    rw [if_pos hq]
    split at hp
    · exact h.knows hp
    · simp at hp

end Within

end Policy

/-! ## Walks that skip fewer blocks -/

mutual
/-- When active nodes stay active, a walk that excludes inactive blocks meets all that it met, in
the same order. -/
theorem Tree.map_descendants_sublist (t : Tree)
    (hg : ∀ u ∈ t.nodes, u.isActive = true → (u.mapCores g).isActive = true) :
    ((t.descendants true).map (Tree.mapCores g)).Sublist ((t.mapCores g).descendants true) := by
  match t with
  | .comment core text => simp [Tree.descendants]
  | .directive core statement => simp [Tree.descendants]
  | .block core statement children =>
    rw [Tree.mapCores, Tree.descendants, Tree.descendants]
    exact Forest.map_walk_sublist children fun u hu => hg u (Tree.mem_nodes_of_mem_children hu)

theorem Forest.map_walk_sublist (f : Forest)
    (hg : ∀ u ∈ Forest.nodes f, u.isActive = true → (u.mapCores g).isActive = true) :
    ((Forest.walk true f).map (Tree.mapCores g)).Sublist
      (Forest.walk true (Forest.mapCores g f)) := by
  match f with
  | [] => simp [Forest.walk]
  | t :: f =>
    have hbelow := Tree.map_descendants_sublist t fun u hu => hg u (by simp [hu])
    have hrest := Forest.map_walk_sublist f fun u hu => hg u (by simp [hu])
    rw [Forest.mapCores, Forest.walk, Forest.walk]
    cases hactive : t.isActive with
    | true =>
      have hactive' := hg t (by simp [t.self_mem_nodes]) hactive
      simpa [hactive'] using hbelow.append hrest
    | false =>
      -- what was skipped may be met now
      cases (t.mapCores g).isActive with
      | true => simpa using (hrest.trans (List.sublist_append_right ..)).cons _
      | false => simpa using hrest
end

theorem Search.map_run_sublist (s : Search) (hs : s.excludes = true)
    (hg : ∀ u ∈ t.nodes, u.isActive = true → (u.mapCores g).isActive = true) :
    ((s.run t).map (Tree.mapCores g)).Sublist (s.run (t.mapCores g)) := by
  have haccepts : s.accepts ∘ Tree.mapCores g = s.accepts := funext (s.accepts_mapCores g)
  rw [s.run_eq, s.run_eq, hs, ← haccepts, ← List.filter_map, haccepts]
  exact (Tree.map_descendants_sublist t hg).filter s.accepts

/-- When active nodes stay active and the top of a tree stays in force, all that was in force in the
tree stays so. -/
theorem Workspace.Sound.enabled_mapCores (hw : w.Sound) (hw' : w'.Sound)
    (ht : t ∈ Forest.nodes w.forest) (ht' : t.mapCores g ∈ Forest.nodes w'.forest)
    (hg : ∀ u ∈ t.nodes, u.isActive = true → (u.mapCores g).isActive = true)
    (htop : w.forest.enabled t = true → w'.forest.enabled (t.mapCores g) = true) :
    ∀ u ∈ t.nodes, w.forest.enabled u = true → w'.forest.enabled (u.mapCores g) = true := by
  have hnodes := Forest.nodes_sublist w.forest ht
  have hnodes' := Forest.nodes_sublist w'.forest ht'
  refine Tree.forall_nodes_of_children t (fun v hv hstays x hx hon => ?_) htop
  have hv' : v.mapCores g ∈ Forest.nodes w'.forest :=
    hnodes'.subset (by rw [Tree.nodes_mapCores]; exact List.mem_map_of_mem hv)
  have hx' : x.mapCores g ∈ (v.mapCores g).children := by
    rw [Tree.mapCores_children]
    exact List.mem_map_of_mem hx
  -- a child is in force when its block is in force and active
  rw [hw.enabled_child (hnodes.subset hv) hx, Workspace.enabledInside, Bool.and_eq_true] at hon
  rw [hw'.enabled_child hv' hx', Workspace.enabledInside, hstays hon.1, hg v hv hon.2]
  rfl

/-! ## Documents under two policies -/

/-- The tree under another policy. -/
def Tree.withPolicy (q : Policy) (t : Tree) : Tree :=
  t.mapCores fun core => { core with policy := q }

mutual
/-- The policy of new nodes is no part of what they are otherwise, nor of their numbers. -/
theorem Tree.ofFragment_withPolicy (k : Kinship) (q : Policy) (ancestor next : NodeId)
    (f : Fragment) :
    Tree.ofFragment ⟨q, k.journal⟩ ancestor next f =
      ((Tree.ofFragment k ancestor next f).1.map (Tree.withPolicy q),
        (Tree.ofFragment k ancestor next f).2) := by
  obtain ⟨source, kind, span, leading, header, trailing, footer, children⟩ := f
  cases kind with
  | block name arguments =>
    rw [Tree.ofFragment, Tree.ofFragment,
      Forest.ofFragments_withPolicy k q next (next + 1) children]
    simp only [Option.map_some, Tree.withPolicy, Tree.mapCores, Forest.mapCores_eq_map,
      Kinship.core]
    rfl
  | _ => rfl

theorem Forest.ofFragments_withPolicy (k : Kinship) (q : Policy) (ancestor next : NodeId)
    (fs : List Fragment) :
    Forest.ofFragments ⟨q, k.journal⟩ ancestor next fs =
      ((Forest.ofFragments k ancestor next fs).1.map (Tree.withPolicy q),
        (Forest.ofFragments k ancestor next fs).2) := by
  match fs with
  | [] => rfl
  | f :: fs =>
    rw [Forest.ofFragments, Forest.ofFragments, Tree.ofFragment_withPolicy k q ancestor next f]
    simp only
    rw [Forest.ofFragments_withPolicy k q ancestor _ fs]
    cases (Tree.ofFragment k ancestor next f).1 <;> simp
end

theorem Tree.IsUnder.isActive_withPolicy (ht : t.IsUnder p) (h : p.Within q) (hu : u ∈ t.nodes)
    (hactive : u.isActive = true) : (u.withPolicy q).isActive = true := by
  have hpolicy := ht u hu
  cases u with
  | block core statement children =>
    rw [Tree.isActive, show core.policy = p from hpolicy] at hactive
    exact h.isActive hactive
  | _ => rfl

namespace Workspace

/-- Under another policy a document is the same tree, but for the policy. -/
theorem opened_withPolicy (w : Workspace) (document : Fragment) (p q : Policy) :
    w.opened document q = ((w.opened document p).1.withPolicy q,
      { (w.opened document p).2 with
        forest := (w.opened document p).1.withPolicy q :: w.forest }) := by
  rw [opened, Forest.ofFragments_withPolicy ⟨p, w.next⟩ q, opened, Tree.withPolicy, Tree.mapCores,
    Forest.mapCores_eq_map]
  rfl

/-- The root of a document is in force. -/
theorem enabled_opened (w : Workspace) (document : Fragment) (p : Policy) :
    (w.opened document p).2.forest.enabled (w.opened document p).1 = true := by
  simp [opened, Forest.enabled, Forest.root, Forest.lineage, Tree.core, Tree.standing,
    Tree.statement?]

/-- Knowing more hides nothing. Under a policy that knows more a document is the same tree. From its
root, and from every block in it, searches that exclude inactive blocks find what they found, in the
same order, and what was in force is in force. -/
theorem openDocument_within {operations : List Operation} (hw : empty.run operations = w)
    (hpath : document.source.path.text ≠ "") (hpq : p.Within q) :
    ∃ t w' w'', w.openDocument document p = .ok (t, w') ∧
      w.openDocument document q = .ok (t.withPolicy q, w'') ∧
      (∀ b ∈ t.nodes, ∀ name,
        ((b.findBlocks name true).map (Tree.withPolicy q)).Sublist
          ((b.withPolicy q).findBlocks name true) ∧
        ((b.findDirectives name true).map (Tree.withPolicy q)).Sublist
          ((b.withPolicy q).findDirectives name true)) ∧
      ∀ u ∈ t.nodes, w'.forest.enabled u = true → w''.forest.enabled (u.withPolicy q) = true := by
  have hsound : w.Sound := hw ▸ Sound.empty.run operations
  -- all that is known of the tree under the other policy is said of this one with that policy
  have hother := openDocument_of_path hpath w q
  have hsound' := hsound.opened document q
  have hmem' := mem_nodes_opened w document q
  have hon' := enabled_opened w document q
  have hunder := isUnder_opened w document p
  rw [opened_withPolicy w document p q] at hother hsound' hmem' hon'
  refine ⟨_, _, _, openDocument_of_path hpath w p, hother, fun b hb name => ?_, ?_⟩
  · have hactive : ∀ u ∈ b.nodes, u.isActive = true → (u.withPolicy q).isActive = true :=
      fun u hu => (hunder.of_mem hb).isActive_withPolicy hpq hu
    exact ⟨Search.map_run_sublist (.blocks name true) rfl hactive,
      Search.map_run_sublist (.directives name true) rfl hactive⟩
  · exact (hsound.opened document p).enabled_mapCores hsound' (mem_nodes_opened w document p) hmem'
      (fun u hu => hunder.isActive_withPolicy hpq hu) fun _ => hon'

/-- A module and a parameter become known, and what is in a block in a block is found as well. -/
theorem openDocument_within_nested :
    ∃ document t w' w'' q, q = (Policy.default.withModule "mod_ssl.c").withDefine "X" ∧
      Fragment.read ⟨⟨"site.conf"⟩,
        "<IfModule ssl>\nB 1\n<IfDefine X>\nB 2\n</IfDefine>\n</IfModule>\nB 3\n"⟩ = .ok document ∧
      empty.openDocument document Policy.default = .ok (t, w') ∧
      empty.openDocument document q = .ok (t.withPolicy q, w'') ∧
      (t.findDirectives "b" true).map Tree.id = [5] ∧
      ((t.withPolicy q).findDirectives "b" true).map Tree.id = [2, 4, 5] ∧
      ((t.findDirectives "b" true).map (Tree.withPolicy q)).Sublist
        ((t.withPolicy q).findDirectives "b" true) ∧
      ∀ u ∈ t.nodes, w'.forest.enabled u = true → w''.forest.enabled (u.withPolicy q) = true := by
  have hfacts : ((Fragment.read ⟨⟨"site.conf"⟩,
        "<IfModule ssl>\nB 1\n<IfDefine X>\nB 2\n</IfDefine>\n</IfModule>\nB 3\n"⟩).toOption.any
      fun document => document.source.path.text != "" &&
        (empty.openDocument document Policy.default).toOption.any fun opened =>
          (opened.1.findDirectives "b" true).map Tree.id == [5] &&
            ((opened.1.withPolicy ((Policy.default.withModule "mod_ssl.c").withDefine
              "X")).findDirectives "b" true).map Tree.id == [2, 4, 5]) = true := by
    decide +kernel
  have hwithin := (Policy.within_withModule Policy.default "mod_ssl.c").trans
    (Policy.within_withDefine _ "X")
  obtain ⟨document, hread, hfacts⟩ := (Option.any_eq_true ..).1 hfacts
  rw [Bool.and_eq_true, bne_iff_ne] at hfacts
  obtain ⟨hpath, hfacts⟩ := hfacts
  obtain ⟨t, w', w'', hopen, hopen', hfound, henabled⟩ :=
    openDocument_within (show empty.run [] = empty from rfl) hpath hwithin
  rw [hopen] at hfacts
  simp only [Except.toOption, Option.any_some, Bool.and_eq_true, beq_iff_eq] at hfacts
  exact ⟨document, t, w', w'', _, rfl, eq_ok_of_toOption hread, hopen, hopen', hfacts.1, hfacts.2,
    (hfound t t.self_mem_nodes "b").2, henabled⟩

end Workspace

end HttpdConf
