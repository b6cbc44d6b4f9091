import SelectionGraph.Direct.Basic

/-!
# Merge — direct selections put together

Selections with the same key are one selection:

- `DirectSelections.addSpread`  : a fragment spread, included when one of its spreads is;
- `DirectSelections.addField`   : a field, with the selections below it merged;
- `DirectSelections.addInline`  : an inline fragment, likewise;
- `DirectSelections.merge`      : all selections of another set, fields first, then inline fragments,
  then spreads.

The first selection of a key keeps its place, its node and its identity.  A field of leaf type does
not merge with one that selects on an entity, nor do fields that select on different entities.
-/

namespace SelectionGraph
namespace DirectSelections

/-! ## Selections without selections below them -/

def addSpread (d : DirectSelections) (s : NamedSpread) : DirectSelections :=
  let change := fun (t : NamedSpread) => { t with inclusion := t.inclusion.merge s.inclusion }
  { d with namedFragments := Ordered.upsert (fun t => t.key == s.key) change s d.namedFragments }

/-- Puts a field in the place of the one with its response key, or last. -/
def putField (d : DirectSelections) (f : Field) : DirectSelections :=
  { d with fields := Ordered.upsert (fun g => g.responseKey == f.responseKey) (fun _ => f) f d.fields }

/-- Puts an inline fragment in the place of the one with its key, or last. -/
def putInline (d : DirectSelections) (s : InlineSpread) : DirectSelections :=
  let place := Ordered.upsert (fun t => t.key == s.key) (fun _ => s) s
  { d with inlineFragments := place d.inlineFragments }

def addScalar (d : DirectSelections) (f : ScalarField) : Except BuildError DirectSelections :=
  match d.field? f.responseKey with
  | none => .ok (d.putField (.scalar f))
  | some (.scalar held) =>
      .ok (d.putField (.scalar { held with inclusion := held.inclusion.merge f.inclusion }))
  | some (.entity held) => .error (.fieldConflict held.responseKey held.type f.type)

/-! ## Selections with selections below them -/

mutual

def merge (d : DirectSelections) : DirectSelections → Except BuildError DirectSelections
  | ⟨fields, inlineFragments, namedFragments⟩ => do
      let withFields ← mergeFields d fields
      let withInlines ← mergeInlines withFields inlineFragments
      return namedFragments.foldl addSpread withInlines

def mergeFields (d : DirectSelections) : List Field → Except BuildError DirectSelections
  | [] => .ok d
  | .scalar f :: rest => do
      mergeFields (← d.addScalar f) rest
  | .entity ⟨id, responseKey, type, node, inclusion, ⟨typeInfo, direct⟩⟩ :: rest =>
      match d.field? responseKey with
      | none =>
          let added := ⟨id, responseKey, type, node, inclusion, ⟨typeInfo, direct⟩⟩
          mergeFields (d.putField (.entity added)) rest
      | some (.scalar held) => .error (.fieldConflict held.responseKey held.type type)
      | some (.entity held) =>
          -- Conditions and what is selected below are put together separately.
          if held.entity == typeInfo.entity then do
            let below ← merge held.selectionSet.direct direct
            let selectionSet := { held.selectionSet with direct := below }
            let merged := { held with inclusion := held.inclusion.merge inclusion, selectionSet }
            mergeFields (d.putField (.entity merged)) rest
          else .error (.entityConflict held.responseKey)

def mergeInlines (d : DirectSelections) : List InlineSpread → Except BuildError DirectSelections
  | [] => .ok d
  | ⟨⟨typeInfo, direct⟩, deferral⟩ :: rest =>
      let added : InlineSpread := ⟨⟨typeInfo, direct⟩, deferral⟩
      match d.inlineFragments.find? fun s => s.key == added.key with
      | none => mergeInlines (d.putInline added) rest
      | some held => do
          let below ← merge held.selectionSet.direct direct
          let merged := { held with selectionSet := { held.selectionSet with direct := below } }
          mergeInlines (d.putInline merged) rest

end

def addField (d : DirectSelections) (f : Field) : Except BuildError DirectSelections :=
  d.mergeFields [f]

def addInline (d : DirectSelections) (s : InlineSpread) : Except BuildError DirectSelections :=
  d.mergeInlines [s]

end DirectSelections
end SelectionGraph
