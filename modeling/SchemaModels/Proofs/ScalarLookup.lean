import SchemaModels.Proofs.Outline
import SchemaModels.Proofs.Registry

/-! Scalars of a module. A name is looked up in the settings, then among the built-in scalars, then among those
that the document defines. Of the table of scalars, a module shows what can be looked up and nothing more: the
order of rows does not matter. -/

namespace SchemaModels
set_option autoImplicit false

/-! ## Tables -/

theorem ScalarTable.get?_ofDocument (doc : Document) (overrides : Registry ScalarTarget) (name : String) :
    (ofDocument doc overrides).get? name =
      (overrides.get? name).or ((builtin.get? name).or (if name ∈ doc.scalarNames then some .any else none)) := by
  rw [ofDocument, Registry.get?_putAll_registry, Registry.get?_offerAll]

namespace Document

theorem scalarNames_merge (doc : Document) : doc.merge.scalarNames = doc.scalarNames := by
  refine filterMap_merge (fun base ext => ?_) (fun _ => rfl) doc
  cases base <;> cases ext <;> rfl

/-- Folding extensions in adds no scalars. -/
theorem scalarTable_merge (doc : Document) (settings : Settings) :
    doc.merge.scalarTable settings = doc.scalarTable settings := by
  rw [scalarTable, scalarTable, ScalarTable.ofDocument, ScalarTable.ofDocument, scalarNames_merge]

end Document

/-! ## What a module shows of its table -/

section Congruence

variable {table table' : ScalarTable} (h : table.get? = table'.get?)
include h

theorem ScalarTable.isPrimitive_congr : table.isPrimitive = table'.isPrimitive := by
  funext identity
  rw [Bool.eq_iff_iff]
  simp only [isPrimitive, Bool.or_eq_true, List.any_eq_true, Registry.mem_values_iff, h]

theorem TypeHint.named_congr : named table = named table' := by
  funext name
  rw [named, named, h]

theorem TypeHint.ofType_congr : ofType table = ofType table' := by
  funext type
  induction type with
  | named name => exact congrFun (named_congr h) name
  | list item ih => rw [ofType, ofType, ih]
  | nonNull inner ih => rw [ofType, ofType, ih]

theorem Attribute.ofField_congr : ofField table = ofField table' := by
  funext name type
  rw [ofField, ofField, TypeHint.ofType_congr h]

theorem Declaration.ofDefinition?_congr (style : EnumStyle) :
    ofDefinition? table style = ofDefinition? table' style := by
  have hbase : baseName table = baseName table' := by
    funext interface
    rw [baseName, baseName, TypeHint.named_congr h]
  funext definition
  cases definition <;>
    simp only [ofDefinition?, ofObject, ofInterface, ofInput, ofUnion, hbase, TypeHint.named_congr h,
      Attribute.ofField_congr h, ScalarTable.isPrimitive_congr h]

end Congruence

theorem Document.pythonModule_congr {doc : Document} {settings settings' : Settings}
    (hstyle : settings.enumStyle = settings'.enumStyle)
    (htable : (doc.scalarTable settings).get? = (doc.scalarTable settings').get?) :
    doc.pythonModule settings = doc.pythonModule settings' := by
  rw [← scalarTable_merge doc settings, ← scalarTable_merge doc settings'] at htable
  have hdeclarations : doc.merge.declarations settings = doc.merge.declarations settings' := by
    unfold scalarTable at htable
    simp only [declarations, hstyle, Declaration.ofDefinition?_congr htable]
  rw [pythonModule_eq, pythonModule_eq, plainModule, plainModule, hdeclarations, hstyle]

end SchemaModels
