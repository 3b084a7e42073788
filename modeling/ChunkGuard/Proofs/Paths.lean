import ChunkGuard.FileSystem.File

/-!
# Paths after a file was put somewhere

A file put where a file or nothing was changes nothing about the way to other places: every path
leads where it led before, and one that led to the missing file leads to it now
(`FileTree.resolve_put`). `FileTree.Holds` says what file is at the end of a path.
-/

namespace ChunkGuard

/-- Where a path that ended somewhere ends once something is at a place. -/
def Destination.filled (place : Place) : Destination → Destination
  | free p => if p = place then found p else free p
  | found p => found p

namespace FileTree

variable {t : FileTree} {place p : Place} {content : Content}

/-! ## Nodes -/

/-- What is put somewhere is there. -/
theorem node?_put_self (h : place ≠ []) (node : Node) :
    (t.put place node).node? place = some node := by
  rw [node?, if_neg h]
  exact List.lookup_cons_self

/-- Nothing else changes. -/
theorem node?_put_of_ne (h : p ≠ place) (node : Node) : (t.put place node).node? p = t.node? p := by
  rw [node?, node?]
  by_cases hroot : p = []
  · rw [if_pos hroot, if_pos hroot]
  rw [if_neg hroot, if_neg hroot]
  have hlookup : ∀ nodes : List (Place × Node),
      (nodes.filter (·.1 ≠ place)).lookup p = nodes.lookup p := by
    intro nodes
    induction nodes with
    | nil => rfl
    | cons entry rest ih =>
        by_cases hsame : entry.1 = place
        · have hother : (p == entry.1) = false := by
            rw [hsame]
            exact beq_false_of_ne h
          rw [List.filter_cons_of_neg (by simpa using hsame), ih, List.lookup_cons, hother]
        · rw [List.filter_cons_of_pos (by simpa using hsame), List.lookup_cons, List.lookup_cons, ih]
  show List.lookup p ((place, node) :: _) = _
  rw [List.lookup_cons, beq_false_of_ne h]
  exact hlookup t.nodes

/-- A file may be put here: there is one already, or nothing at all. -/
def Takes (t : FileTree) (place : Place) : Prop :=
  t.node? place = none ∨ ∃ content, t.node? place = some (.file content)

theorem Takes.ne_nil (h : t.Takes place) : place ≠ [] := by
  rintro rfl
  obtain h | ⟨content, h⟩ := h <;> cases h

/-- Directories stay. -/
theorem isDirectory_put (h : t.Takes place) (p : Place) :
    (t.put place (.file content)).isDirectory p = t.isDirectory p := by
  rw [isDirectory, isDirectory]
  by_cases hp : p = place
  · subst hp
    rw [node?_put_self h.ne_nil]
    obtain h | ⟨content, h⟩ := h
    · rw [h]
      rfl
    · rw [h]
      rfl
  · rw [node?_put_of_ne hp]

/-! ## Ways -/

/-- A name that is looked for in a directory. -/
structure Proper (name : String) : Prop where
  not_here : ¬ (name = "" ∨ name = ".")
  not_up : name ≠ ".."
  short : ¬ nameLimit < name.utf8ByteSize

/-- How names can lead from a place to where they end, following so many links at most. -/
inductive Leads (t : FileTree) : Nat → Place → List String → Destination → Prop where
  | here (links : Nat) (p : Place) : Leads t links p [] (.found p)
  | stay {links : Nat} {p : Place} {name : String} {rest : List String} {d : Destination} :
      t.isDirectory p → name = "" ∨ name = "." → Leads t links p rest d →
      Leads t links p (name :: rest) d
  | up {links : Nat} {p : Place} {rest : List String} {d : Destination} :
      t.isDirectory p → Leads t links p.dropLast rest d → Leads t links p (".." :: rest) d
  | free {links : Nat} {p : Place} {name : String} :
      t.isDirectory p → Proper name → t.node? (p ++ [name]) = none →
      Leads t links p [name] (.free (p ++ [name]))
  | link {links : Nat} {p : Place} {name target : String} {rest : List String} {d : Destination} :
      t.isDirectory p → Proper name → t.node? (p ++ [name]) = some (.link target) →
      Leads t links (if isAbsolute target then [] else p) (names target ++ rest) d →
      Leads t (links + 1) p (name :: rest) d
  | into {links : Nat} {p : Place} {name : String} {node : Node} {rest : List String}
      {d : Destination} :
      t.isDirectory p → Proper name → t.node? (p ++ [name]) = some node →
      (∀ target, node ≠ .link target) → Leads t links (p ++ [name]) rest d →
      Leads t links p (name :: rest) d

/-- What is followed to somewhere leads there. -/
theorem Leads.of_walkFrom {links : Nat} {names : List String} {d : Destination}
    (hwalk : t.walkFrom links p names = .ok d) : t.Leads links p names d := by
  -- One case for each way the walk goes on or ends. Those that end with an error contradict `hwalk`.
  induction links, p, names using walkFrom.induct t with
  | case1 links q =>
      rw [walkFrom] at hwalk
      cases hwalk
      exact .here links q
  | case2 links q name rest hnone =>
      rw [walkFrom, if_pos hnone] at hwalk
      cases hwalk
  | case3 links q name rest hsome hstay ih =>
      rw [walkFrom, if_neg hsome, if_pos hstay] at hwalk
      exact .stay (by simpa using hsome) hstay (ih hwalk)
  | case4 links q rest hsome hmove ih =>
      rw [walkFrom, if_neg hsome, if_neg hmove, if_pos rfl] at hwalk
      exact .up (by simpa using hsome) (ih hwalk)
  | case5 links q name rest hsome hmove hdown hlong =>
      rw [walkFrom, if_neg hsome, if_neg hmove, if_neg hdown, if_pos hlong] at hwalk
      cases hwalk
  | case6 links q name rest hsome hmove hdown hshort hnone hlast =>
      rw [walkFrom, if_neg hsome, if_neg hmove, if_neg hdown, if_neg hshort, hnone] at hwalk
      obtain rfl := List.isEmpty_iff.mp hlast
      cases hwalk
      exact .free (by simpa using hsome) ⟨hmove, hdown, hshort⟩ hnone
  | case7 links q name rest hsome hmove hdown hshort hnone hmore =>
      rw [walkFrom, if_neg hsome, if_neg hmove, if_neg hdown, if_neg hshort, hnone] at hwalk
      dsimp only at hwalk
      rw [if_neg hmore] at hwalk
      cases hwalk
  | case8 q name rest hsome hmove hdown hshort target hlink =>
      rw [walkFrom, if_neg hsome, if_neg hmove, if_neg hdown, if_neg hshort, hlink] at hwalk
      cases hwalk
  | case9 links q name rest hsome hmove hdown hshort target hlink hleft ih =>
      rw [walkFrom, if_neg hsome, if_neg hmove, if_neg hdown, if_neg hshort, hlink] at hwalk
      dsimp only at hwalk
      rw [if_neg hleft] at hwalk
      obtain ⟨n, rfl⟩ := Nat.exists_eq_succ_of_ne_zero hleft
      exact .link (by simpa using hsome) ⟨hmove, hdown, hshort⟩ hlink (ih hwalk)
  | case10 links q name rest hsome hmove hdown hshort node hother hnode ih =>
      rw [walkFrom, if_neg hsome, if_neg hmove, if_neg hdown, if_neg hshort, hnode] at hwalk
      refine .into (by simpa using hsome) ⟨hmove, hdown, hshort⟩ hnode hother (ih ?_)
      cases node with
      | link target => exact absurd rfl (hother target)
      | _ => exact hwalk

/-- What leads somewhere is followed there. -/
theorem Leads.walkFrom_eq {links : Nat} {names : List String} {d : Destination}
    (hleads : t.Leads links p names d) : t.walkFrom links p names = .ok d := by
  have hdirectory : ∀ {q : Place}, t.isDirectory q → ¬ (!t.isDirectory q) = true := fun hq => by
    rw [hq]
    exact Bool.false_ne_true
  induction hleads with
  | here links p => rw [walkFrom]
  | stay hp hname _ ih => rw [walkFrom, if_neg (hdirectory hp), if_pos hname, ih]
  | up hp _ ih => rw [walkFrom, if_neg (hdirectory hp), if_neg (by decide), if_pos rfl, ih]
  | free hp hname hnone =>
      rw [walkFrom, if_neg (hdirectory hp), if_neg hname.not_here, if_neg hname.not_up,
        if_neg hname.short, hnone]
      rfl
  | link hp hname hlink _ ih =>
      rw [walkFrom, if_neg (hdirectory hp), if_neg hname.not_here, if_neg hname.not_up,
        if_neg hname.short, hlink]
      dsimp only
      rw [if_neg (Nat.succ_ne_zero _), Nat.add_sub_cancel, ih]
  | @into links p name node rest d hp hname hnode hother _ ih =>
      rw [walkFrom, if_neg (hdirectory hp), if_neg hname.not_here, if_neg hname.not_up,
        if_neg hname.short, hnode]
      cases node with
      | link target => exact absurd rfl (hother target)
      | _ => exact ih

/-- A way that led somewhere leads there still. -/
theorem Leads.put (h : t.Takes place) {links : Nat} {names : List String} {d : Destination}
    (hleads : t.Leads links p names d) :
    (t.put place (.file content)).Leads links p names (d.filled place) := by
  have hdirectory : ∀ {q : Place}, t.isDirectory q →
      (t.put place (.file content)).isDirectory q := fun hq => (isDirectory_put h _).trans hq
  have hfile : ∀ {q : Place}, q = place →
      (t.put place (.file content)).node? q = some (.file content) := fun hq =>
    hq ▸ node?_put_self h.ne_nil _
  induction hleads with
  | here links p => exact .here links p
  | stay hp hname _ ih => exact .stay (hdirectory hp) hname ih
  | up hp _ ih => exact .up (hdirectory hp) ih
  | @free links p name hp hname hnone =>
      by_cases hplace : p ++ [name] = place
      · rw [Destination.filled, if_pos hplace]
        exact .into (hdirectory hp) hname (hfile hplace) nofun (.here links _)
      · rw [Destination.filled, if_neg hplace]
        exact .free (hdirectory hp) hname ((node?_put_of_ne hplace _).trans hnone)
  | @link links p name target rest d hp hname hlink _ ih =>
      have hplace : p ++ [name] ≠ place := by
        rintro rfl
        obtain hnone | ⟨_, hfile⟩ := h
        · rw [hlink] at hnone
          cases hnone
        · rw [hlink] at hfile
          cases hfile
      exact .link (hdirectory hp) hname ((node?_put_of_ne hplace _).trans hlink) ih
  | @into links p name node rest d hp hname hnode hother _ ih =>
      by_cases hplace : p ++ [name] = place
      · exact .into (hdirectory hp) hname (hfile hplace) nofun ih
      · exact .into (hdirectory hp) hname ((node?_put_of_ne hplace _).trans hnode) hother ih

/-- A way ends free only where there is nothing. -/
theorem Leads.node?_eq_none {links : Nat} {names : List String} {q : Place}
    (hleads : t.Leads links p names (.free q)) : t.node? q = none := by
  generalize hd : Destination.free q = d at hleads
  induction hleads with
  | here => cases hd
  | free _ _ hnone =>
      cases hd
      exact hnone
  | stay _ _ _ ih => exact ih hd
  | up _ _ ih => exact ih hd
  | link _ _ _ _ ih => exact ih hd
  | into _ _ _ _ _ ih => exact ih hd

/-! ## Paths -/

/-- A path that leads somewhere is short enough and has a way there. -/
theorem resolve_eq_ok {path : String} {d : Destination} :
    t.resolve path = .ok d ↔
      ¬ pathLimit < (t.absolute path).utf8ByteSize ∧ ¬ path.isEmpty ∧
        t.Leads linkLimit (if isAbsolute path then [] else t.current) (names path) d := by
  rw [resolve, walk]
  by_cases hlong : pathLimit < (t.absolute path).utf8ByteSize
  · rw [if_pos hlong]
    exact ⟨nofun, fun h => absurd hlong h.1⟩
  by_cases hempty : path.isEmpty
  · rw [if_neg hlong, if_pos hempty]
    exact ⟨nofun, fun h => absurd hempty h.2.1⟩
  rw [if_neg hlong, if_neg hempty]
  exact ⟨fun h => ⟨hlong, hempty, .of_walkFrom h⟩, fun h => h.2.2.walkFrom_eq⟩

/-- A path that led somewhere leads there still. -/
theorem resolve_put (h : t.Takes place) {path : String} {d : Destination}
    (hresolve : t.resolve path = .ok d) :
    (t.put place (.file content)).resolve path = .ok (d.filled place) := by
  obtain ⟨hlong, hempty, hleads⟩ := resolve_eq_ok.mp hresolve
  exact resolve_eq_ok.mpr ⟨hlong, hempty, hleads.put h⟩

/-- A file can be made where a path ends free. -/
theorem takes_of_resolve_free {path : String} (hresolve : t.resolve path = .ok (.free place)) :
    t.Takes place :=
  .inl (resolve_eq_ok.mp hresolve).2.2.node?_eq_none

/-! ## Files -/

/-- The path leads to a place, at which there is a file with these bytes, or nothing. -/
def HoldsAt (t : FileTree) (path : String) (place : Place) : Option Bytes → Prop
  | some bytes => t.resolve path = .ok (.found place) ∧ t.bytes? place = some bytes
  | none => t.resolve path = .ok (.free place)

/-- There is a file with these bytes at the end of the path, or nothing. -/
def Holds (t : FileTree) (path : String) (content : Option Bytes) : Prop :=
  ∃ place, t.HoldsAt path place content

theorem bytes?_eq_some {bytes : Bytes} :
    t.bytes? place = some bytes ↔
      ∃ content, t.node? place = some (.file content) ∧ Content.toBytes content = bytes := by
  rw [bytes?]
  cases t.node? place with
  | none => exact ⟨nofun, nofun⟩
  | some node =>
      cases node with
      | file content =>
          constructor
          · intro h
            exact ⟨content, rfl, Option.some.inj h⟩
          · rintro ⟨_, hsame, rfl⟩
            cases hsame
            rfl
      | directory => exact ⟨nofun, nofun⟩
      | link target => exact ⟨nofun, nofun⟩

theorem HoldsAt.takes {path : String} {content : Option Bytes}
    (h : t.HoldsAt path place content) : t.Takes place := by
  cases content with
  | none => exact takes_of_resolve_free h
  | some bytes =>
      obtain ⟨content, hnode, -⟩ := bytes?_eq_some.mp h.2
      exact .inr ⟨content, hnode⟩

/-- A file put where the path leads is there. -/
theorem HoldsAt.put {path : String} {content : Option Bytes} (h : t.HoldsAt path place content)
    (c : Content) :
    (t.put place (.file c)).HoldsAt path place (some (Content.toBytes c)) := by
  refine ⟨?_, bytes?_eq_some.mpr ⟨c, node?_put_self h.takes.ne_nil _, rfl⟩⟩
  cases content with
  | none =>
      have hresolve : (t.put place (.file c)).resolve path = _ := resolve_put h.takes h
      rw [Destination.filled, if_pos rfl] at hresolve
      exact hresolve
  | some bytes => exact resolve_put h.takes h.1

end FileTree

end ChunkGuard
