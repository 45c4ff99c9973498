import AutomationScript.Files.Tree
import AutomationScript.Proofs.Json.ReadBack
import AutomationScript.Settings.Files

/-!
# Settings written and read

Settings are read back from the text that they are written as, and from the file they are saved in.
Fields that are left out of the text have their default values (`Settings.read?_indented`).
-/

namespace AutomationScript

open Json

/-! ## Files -/

namespace FileTree

variable {tree : FileTree} {place : List String} {entry : FileEntry}

theorem entryAt?_put_of_ne {other : List String} (differs : other ≠ place) :
    (tree.put place entry).entryAt? other = tree.entryAt? other := by
  have notFirst : (other == place) = false := beq_eq_false_iff_ne.mpr differs
  rw [entryAt?, entryAt?, put, List.lookup_cons, notFirst]

theorem entryAt?_put (named : place.all (· = "..") = false) :
    (tree.put place entry).entryAt? place = some entry := by
  rw [entryAt?, named, if_neg Bool.false_ne_true, put, List.lookup_cons_self]

theorem entryAt?_of_walk {start last steps : List String}
    (walked : tree.walk start steps = .ok last) : tree.entryAt? start = some .directory := by
  unfold walk at walked
  split at walked
  · cases walked
  · assumption
  · cases walked

section Put

variable (noDirectory : tree.entryAt? place ≠ some .directory)

include noDirectory

/-- All places on the way are directories, so a walk is the same after a file is put where no
directory is. -/
theorem walk_put {start last steps : List String} (walked : tree.walk start steps = .ok last) :
    (tree.put place entry).walk start steps = .ok last := by
  induction steps generalizing start with
  | nil =>
    have here := entryAt?_of_walk walked
    have differs : start ≠ place := fun same => noDirectory (same ▸ here)
    rw [walk, here] at walked
    rwa [walk, entryAt?_put_of_ne differs, here]
  | cons step steps ih =>
    have here := entryAt?_of_walk walked
    have differs : start ≠ place := fun same => noDirectory (same ▸ here)
    rw [walk, here] at walked
    rw [walk, entryAt?_put_of_ne differs, here]
    dsimp only at walked ⊢
    split at walked
    · cases walked
    · next short =>
      rw [if_neg short]
      exact ih walked

theorem approach_put {path : String} {found : List String × String}
    (approached : tree.approach path = .ok found) :
    (tree.put place entry).approach path = .ok found := by
  unfold approach at approached ⊢
  dsimp only at approached ⊢
  cases walked : tree.walk [] (Path.steps path).dropLast with
  | ok last =>
    have again : (tree.put place entry).walk [] _ = _ := walk_put noDirectory walked
    rw [walked] at approached
    rwa [again]
  | error error =>
    rw [walked] at approached
    by_cases absolute : Path.isAbsolute path = true
    · rw [if_pos absolute] at approached ⊢
      exact approached
    · rw [if_neg absolute] at approached
      repeat' split at approached
      all_goals cases approached

end Put

theorem read_write {path text : String} {tree' : FileTree}
    (written : tree.write path (.text text) = .ok tree') : tree'.read path = .ok text := by
  unfold write at written
  cases approached : tree.approach path with
  | error error => rw [approached] at written; cases written
  | ok found =>
    obtain ⟨place, last⟩ := found
    rw [approached] at written
    dsimp only [bind, Except.bind] at written
    split at written
    · cases written
    next plain =>
    split at written
    · cases written
    next short =>
    split at written
    · cases written
    next noDirectory =>
    cases written
    rw [Bool.or_eq_true, not_or] at plain
    have named : last ≠ "." ∧ last ≠ ".." := by simpa [Path.isDots] using plain.2
    have isPlace : after place last = place ++ [last] := by
      rw [after, if_neg named.1, if_neg named.2]
    have inside : (place ++ [last]).all (· = "..") = false := by
      simp [named.2]
    unfold read find
    rw [approach_put noDirectory approached]
    dsimp only [bind, Except.bind]
    rw [if_neg short, isPlace, entryAt?_put inside]
    dsimp only
    rw [if_neg plain.1]

end FileTree

/-! ## Texts -/

theorem Json.decodeNat_ofNat {n limit : Nat} (inRange : n < limit) :
    decodeNat limit (ofNat n) = some n := by
  have digits : (Nat.toDigits 10 n).all Char.isDigit = true :=
    List.all_eq_true.mpr fun d => Nat.isDigit_of_mem_toDigits (by decide) (by decide)
  have value : Number.ofDigits (Nat.toDigits 10 n) = n :=
    Nat.ofDigitChars_toDigits (by decide) (by decide)
  rw [ofNat, decodeNat, String.toList_ofList, if_pos digits, value]
  simp [Option.filter, inRange]

namespace Settings

def fields (s : Settings) : List (String × Json) :=
  [("version", .ofNat s.version), ("registry", .ofOption .string s.registry),
    ("pretty", .boolean s.pretty), ("log_level", .ofOption .string s.logLevel)]

/-- The settings with the default values of the fields that are left out. -/
def restrict (s : Settings) (keep : String → Bool) : Settings where
  version := if keep "version" then s.version else default.version
  registry := if keep "registry" then s.registry else default.registry
  pretty := if keep "pretty" then s.pretty else default.pretty
  logLevel := if keep "log_level" then s.logLevel else default.logLevel

theorem textual_fields (s : Settings) : ∀ field ∈ s.fields, Textual field.2 := by
  have text := (Returns.text.option fun _ => Json.noConfusion).textual
  simp [fields, text, Textual.boolean, ofNat, Textual.number (isNumeral_toDigits _)]

theorem read?_filter (s : Settings) (inRange : s.version < versionLimit) (keep : String → Bool) :
    read? (Json.ofMembers (s.fields.filter fun field => keep field.1)).indented =
      some (s.restrict keep) := by
  have textual : Textual (.ofMembers (s.fields.filter fun field => keep field.1)) :=
    .object fun field member => s.textual_fields field (List.mem_filter.mp member).1
  have distinct : ((s.fields.filter fun field => keep field.1).map Prod.fst).Nodup :=
    List.Nodup.sublist (List.Sublist.map _ List.filter_sublist) (by simp [fields])
  have text := (Returns.text.option fun _ => Json.noConfusion).decoded
  have field : ∀ {α : Type} name (fallback : α) {decode : Json → Option α} {value a},
      decode value = some a → s.fields.lookup name = some value →
      optional fallback decode ((s.fields.filter fun field => keep field.1).lookup name) =
        some (if keep name then a else fallback) := by
    intro _ name fallback decode value a decoded found
    rw [Table.lookup_filterEntries, found]
    cases keep name
    · rfl
    · exact decoded
  rw [read?, textual.parse?_indented]
  change ofJson? _ = _
  rw [ofJson?, decodeFields_ofMembers _ distinct]
  simp [field "version" _ (decodeNat_ofNat inRange) rfl, field "registry" _ (text _) rfl,
    field "pretty" _ (rfl : decodeBool (.boolean s.pretty) = _) rfl,
    field "log_level" _ (text _) rfl, restrict]

theorem load_save {s : Settings} {path : String} {tree tree' : FileTree}
    (saved : (save s path : StateM FileTree _).run tree = (.ok (), tree')) :
    (load path : StateM FileTree _).run tree' = (read? s.toJson.indented, tree') := by
  generalize made : (FileStore.makeDirectories ((Path.parent? path).getD "") :
    StateM FileTree _) tree = result
  obtain ⟨outcome, middle⟩ := result
  simp only [save, StateT.run, bind, StateT.bind, made] at saved
  cases outcome with
  | error error => cases saved
  | ok _ =>
    simp only [FileStore.writeText, FileTree.change, bind, StateT.bind] at saved
    simp only [load, FileStore.readText, StateT.run, bind, StateT.bind]
    cases given : middle.write path (.text s.toJson.indented) with
    | error error =>
      simp only [get, getThe, MonadStateOf.get, StateT.get, pure, given] at saved
      cases saved
    | ok new =>
      simp only [get, getThe, MonadStateOf.get, StateT.get, pure, given] at saved ⊢
      cases saved
      rw [FileTree.read_write given]
      rfl

/-- Settings whose version is in range are read back from the text that they are written as, and
from every file that they are saved in; and where fields are left out of the text, the defaults
stand in for them. -/
theorem read?_indented (s : Settings) (inRange : s.version < versionLimit) :
    read? s.toJson.indented = some s ∧
    (∀ path tree tree', (save s path : StateM FileTree _).run tree = (.ok (), tree') →
      (load path : StateM FileTree _).run tree' = (some s, tree')) ∧
    ∀ keep : String → Bool,
      read? (Json.ofMembers (s.fields.filter fun field => keep field.1)).indented =
        some (s.restrict keep) := by
  have read : read? s.toJson.indented = some s := by
    have all := s.read?_filter inRange fun _ => true
    rwa [List.filter_eq_self.mpr fun _ _ => rfl] at all
  exact ⟨read, fun path tree tree' saved => read ▸ load_save saved, s.read?_filter inRange⟩

/-- The greatest version, a path with quotes, escapes, control characters and others, and a level
that is not missing but empty: the settings are saved in an empty tree and loaded from it. -/
theorem read?_indented_oddTexts :
    let s : Settings := ⟨4294967295, some "C:\\\"α\n\x01\x7f😀\"", true, some ""⟩
    read? s.toJson.indented = some s ∧
      ∃ tree, (save s "settings.json" : StateM FileTree _).run .empty = (.ok (), tree) ∧
        (load "settings.json" : StateM FileTree _).run tree = (some s, tree) := by
  intro s
  obtain ⟨read, loaded, -⟩ := read?_indented s (by decide)
  have saves : ((save s "settings.json" : StateM FileTree _).run .empty).1.isOk = true := by
    decide +kernel
  generalize run : (save s "settings.json" : StateM FileTree _).run .empty = result at saves
  obtain ⟨_ | _, tree⟩ := result
  · cases saves
  · exact ⟨read, tree, rfl, loaded _ _ _ run⟩

end Settings

end AutomationScript
