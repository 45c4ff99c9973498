import AutomationScript.Proofs.Json.ReadBack
import AutomationScript.Registry.Json

/-!
# Registries written and read

A registry is read back from its JSON text as it was, with its names in the same order
(`Registry.read?_compact`).
-/

namespace AutomationScript

open Json

theorem ValueType.returns : Returns toJson ofJson? where
  textual type := .string type.name
  decoded type := by cases type <;> decide

/-- An alias is read unless it is nested so deep that its table is not. -/
theorem KeyAlias.returns {depth : Nat} (shallow : depth + 1 < nestingLimit) :
    Returns toJson (ofJson? depth) where
  textual keyAlias := by
    cases keyAlias with
    | table entries =>
      refine .object ?_
      simp [Textual.string, Returns.text.table.textual]
    | _ =>
      refine .object ?_
      simp [Textual.string]
  decoded keyAlias := by
    cases keyAlias with
    | lowercase => rfl
    | namespaced default => rfl
    | table entries =>
      let members : List (String × Json) :=
        [("kind", .string "table"), ("entries", encodeTable .string entries)]
      have texts : allMembersHeld (nestingLimit - depth - 1)
          (named (entries.entries.map fun entry => (entry.1, .string entry.2))) = true := by
        refine allMembersHeld_named fun member inside => ?_
        obtain ⟨entry, _, rfl⟩ := List.mem_map.mp inside
        rfl
      have entriesHeld : isHeld (nestingLimit - depth) (encodeTable .string entries) = true := by
        have room : 1 < nestingLimit - depth := by omega
        change (decide (1 < nestingLimit - depth) && _) = true
        rw [decide_eq_true room]
        exact texts
      have held : allMembersHeld (nestingLimit - depth) (named members) = true :=
        allMembersHeld_named (by simp [members, isHeld, entriesHeld])
      change ofJson? depth (.object (named members)) = _
      rw [ofJson?, if_pos held]
      exact congrArg (Option.map KeyAlias.table) (Returns.text.table.decoded entries)

theorem Family.returns : Returns toJson ofJson? where
  textual family := by
    refine .object ?_
    simp [Textual.string, Returns.texts.textual, ValueType.returns.textual]
  decoded family := by
    rw [ofJson?, toJson, decodeFields_ofMembers _ (by simp)]
    simp [List.lookup_cons, required, Returns.text.decoded, Returns.texts.decoded,
      ValueType.returns.decoded]

theorem Category.returns : Returns toJson ofJson? := by
  have type : Returns (ofOption ValueType.toJson) (decodeOption ValueType.ofJson?) :=
    ValueType.returns.option fun _ => Json.noConfusion
  have allowed : Returns (ofOption encodeTexts) (decodeOption (decodeList decodeText)) :=
    Returns.texts.option fun _ => Json.noConfusion
  have keyAlias : Returns (ofOption KeyAlias.toJson) (decodeOption (KeyAlias.ofJson? 4)) :=
    (KeyAlias.returns (by decide)).option fun keyAlias => by cases keyAlias <;> exact Json.noConfusion
  constructor
  · intro category
    refine .object ?_
    simp [Textual.string, type.textual, allowed.textual, keyAlias.textual]
  · intro category
    rw [ofJson?, toJson, decodeFields_ofMembers _ (by simp)]
    simp [List.lookup_cons, required, Json.optional, Returns.text.decoded, type.decoded,
      allowed.decoded, keyAlias.decoded]

theorem NamedValue.returns : Returns toJson ofJson? where
  textual value := by
    refine .object ?_
    simp [Textual.string, ValueType.returns.textual]
  decoded value := by
    rw [ofJson?, toJson, decodeFields_ofMembers _ (by simp)]
    simp [List.lookup_cons, required, Returns.text.decoded, ValueType.returns.decoded]

theorem Vocabulary.returns : Returns toJson ofJson? := by
  have idStem : Returns (ofOption .string) (decodeOption decodeText) :=
    Returns.text.option fun _ => Json.noConfusion
  constructor
  · intro vocabulary
    refine .object ?_
    simp [Textual.string, Returns.texts.textual, idStem.textual]
  · intro vocabulary
    rw [ofJson?, toJson, decodeFields_ofMembers _ (by simp)]
    simp [List.lookup_cons, required, Json.optional, Returns.text.decoded, Returns.texts.decoded,
      idStem.decoded]

theorem Registry.returns : Returns toJson ofJson? where
  textual r := by
    refine .object ?_
    simp [ValueType.returns.table.textual, Family.returns.table.textual,
      Category.returns.table.textual, NamedValue.returns.table.textual,
      Vocabulary.returns.table.textual]
  decoded r := by
    rw [ofJson?, toJson, decodeFields_ofMembers _ (by simp)]
    simp [List.lookup_cons, Json.optional, tableField, ValueType.returns.table.decoded,
      Family.returns.table.decoded, Category.returns.table.decoded,
      NamedValue.returns.table.decoded, Vocabulary.returns.table.decoded]

theorem Registry.extend_empty (r : Registry) : empty.extend r = r := by
  cases r
  simp [Registry.extend, empty, Table.extend_empty]

/-- Every registry is read from the compact text that it is written as, with its entries in the same
order.  So the empty registry, extended with what the text holds, is the registry. -/
theorem Registry.read?_compact (r : Registry) :
    read? r.toJson.compact = some r ∧
      (read? r.toJson.compact).map empty.extend = some r := by
  have read : read? r.toJson.compact = some r := by
    rw [read?, (returns.textual r).parse?_compact]
    exact returns.decoded r
  rw [read, Option.map_some, extend_empty]
  exact ⟨rfl, rfl⟩

end AutomationScript
