/-
# Cycles and trails of the reference graph

A cycle of the reference graph is a list of names each of which refers to the next one, with the
first name once more at the end.

What links a list of names that are being expanded to the graph is an invariant (`Trail`).  The
names on the path are distinct and registered, and *every* name that the type at hand mentions
continues the path to a chain of references.  Where such a name is on the path already, the chain
closes.  The invariant says the same of all names that are mentioned, so it goes from a type to each
part of the type; only a reference makes the path longer.
-/
import Mathlib.Data.List.Chain
import Mathlib.Data.List.Nodup
import WordPacking.Proofs.Definitions.Reference

namespace WordPacking.Definitions

variable {ds : Definitions} {root : Decl}

/-- A list of names leads around a cycle of the reference graph, and the type leads to it. -/
structure Cycle (ds : Definitions) (root : Decl) (names : List String) : Prop where
  /-- There is at least one step. -/
  two_le_length : 2 ≤ names.length
  /-- The last name is the first one. -/
  closed : names.head? = names.getLast?
  /-- No other name is there twice. -/
  nodup : names.dropLast.Nodup
  /-- All names have definitions. -/
  registered : ∀ n ∈ names.dropLast, ∃ definition, ds.get? n = some definition
  /-- The definition of each name mentions the next one. -/
  chain : names.IsChain ds.Refers
  /-- The type leads to the first name. -/
  reached : ∃ n, names.head? = some n ∧ ds.Reaches root n

/-- A reported cycle goes through a name that is reached and leads back to itself. -/
lemma Cycle.exists_onCycle {names : List String} (h : ds.Cycle root names) :
    ∃ n, ds.Reaches root n ∧ ds.OnCycle n := by
  obtain ⟨n, hhead, hreach⟩ := h.reached
  refine ⟨n, hreach, ?_⟩
  match names, h.two_le_length, hhead with
  | _ :: m :: rest, _, rfl =>
    have hchain := h.chain
    rw [List.isChain_cons_cons] at hchain
    have hlast : (m :: rest).getLast (List.cons_ne_nil m rest) = n := by
      have hclosed := h.closed
      rw [List.head?_cons, List.getLast?_cons_cons,
        List.getLast?_eq_getLast_of_ne_nil (List.cons_ne_nil m rest)] at hclosed
      exact (Option.some.inj hclosed).symm
    have hrest : Relation.ReflTransGen ds.Refers m n :=
      List.relationReflTransGen_of_exists_isChain_cons rest hchain.2 hlast
    exact Relation.TransGen.head' hchain.1 hrest

/-! ## The invariant of the path -/

/-- The names of a path lead from a type to a part `d` of a definition.  They are being
expanded, the outermost one first. -/
structure Trail (ds : Definitions) (root : Decl) (path : List String) (d : Decl) : Prop where
  /-- No name is expanded inside itself. -/
  nodup : path.Nodup
  /-- What is expanded has a definition. -/
  registered : ∀ n ∈ path, ∃ definition, ds.get? n = some definition
  /-- The type leads to all names on the path. -/
  path_reached : ∀ n ∈ path, ds.Reaches root n
  /-- The type leads to all names that are mentioned. -/
  reached : ∀ n, d.Mentions n → ds.Reaches root n
  /-- Each name that is mentioned continues the path. -/
  chain : ∀ n, d.Mentions n → (path ++ [n]).IsChain ds.Refers

namespace Trail

variable {path : List String} {d : Decl}

lemma start (ds : Definitions) (root : Decl) : ds.Trail root [] root where
  nodup := List.nodup_nil
  registered := by simp
  path_reached := by simp
  reached n hn := .of_mentions hn
  chain n _ := List.isChain_singleton n

/-- The path stays a trail where fewer names are mentioned, as in a part of the type. -/
lemma of_part {part : Decl} (h : ds.Trail root path d)
    (hpart : ∀ n, part.Mentions n → d.Mentions n) : ds.Trail root path part :=
  { h with
    reached := fun n hn => h.reached n (hpart n hn)
    chain := fun n hn => h.chain n (hpart n hn) }

/-- Expanding a reference puts its name on the path. -/
lemma expand {name : String} {definition : Decl} (h : ds.Trail root path (.leaf (.named name)))
    (hname : name ∉ path) (hd : ds.get? name = some definition) :
    ds.Trail root (path ++ [name]) definition := by
  have hmentions : Decl.Mentions (.leaf (.named name)) name := by simp
  have hreach : ds.Reaches root name := h.reached name hmentions
  refine ⟨?_, ?_, ?_, ?_, ?_⟩
  · rw [← List.concat_eq_append]
    exact List.Nodup.concat hname h.nodup
  · intro n hn
    rcases List.mem_append.mp hn with hn | hn
    · exact h.registered n hn
    · exact ⟨definition, List.mem_singleton.mp hn ▸ hd⟩
  · intro n hn
    rcases List.mem_append.mp hn with hn | hn
    · exact h.path_reached n hn
    · exact List.mem_singleton.mp hn ▸ hreach
  · intro n hn
    exact hreach.tail ⟨definition, hd, hn⟩
  · intro n hn
    refine (h.chain name hmentions).append (List.isChain_singleton n) ?_
    intro x hx y hy
    rw [List.getLast?_concat, Option.mem_some] at hx
    rw [List.head?_cons, Option.mem_some] at hy
    subst hx hy
    exact ⟨definition, hd, hn⟩

/-- A reference to a name on the path closes a cycle: the part of the path from that name on. -/
lemma cycle {name : String} (h : ds.Trail root path (.leaf (.named name))) (hname : name ∈ path) :
    ds.Cycle root (path.dropWhile (· != name) ++ [name]) := by
  -- the report starts at the first occurrence of the name, which is the only one
  obtain ⟨before, after, rfl, hbefore⟩ := List.eq_append_cons_of_mem hname
  have hdrop : (before ++ name :: after).dropWhile (· != name) = name :: after := by
    rw [List.dropWhile_append_of_pos]
    · simp
    · intro n hn
      have hne : n ≠ name := fun heq => hbefore (heq ▸ hn)
      simpa using hne
  rw [hdrop]
  have hclosed : (name :: after ++ [name]).head? = (name :: after ++ [name]).getLast? := by
    rw [List.getLast?_concat, List.cons_append, List.head?_cons]
  refine ⟨by simp, hclosed, ?_, ?_, ?_, name, by simp, h.path_reached name (by simp)⟩
  · rw [List.dropLast_concat]
    exact (List.nodup_append.mp h.nodup).2.1
  · rw [List.dropLast_concat]
    intro n hn
    exact h.registered n (List.mem_append_right before hn)
  · have hchain := h.chain name (by simp)
    rw [List.append_assoc] at hchain
    exact hchain.right_of_append

end Trail

end WordPacking.Definitions
