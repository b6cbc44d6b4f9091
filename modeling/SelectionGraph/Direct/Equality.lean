import SelectionGraph.Direct.Basic

/-!
# Equality — when direct selections are equal

Two selection sets are equal when they sit in the same place and hold equal selections under the
same keys, in whatever order.  Fields are compared with the nodes they were written as, but not by
identity: two builds of one definition give equal fields.
-/

namespace SelectionGraph
namespace DirectSelections

mutual

def same : DirectSelections → DirectSelections → Bool
  | ⟨fields, inlineFragments, namedFragments⟩, e =>
      fields.length == e.fields.length && sameFields fields e
        && inlineFragments.length == e.inlineFragments.length && sameInlines inlineFragments e
        && Ordered.same NamedSpread.key (· == ·) namedFragments e.namedFragments

/-- Whether each of the fields has an equal one in the set. -/
def sameFields : List Field → DirectSelections → Bool
  | [], _ => true
  | .scalar f :: rest, e =>
      (match e.field? f.responseKey with
        | some (.scalar g) => f == g
        | _ => false)
        && sameFields rest e
  | .entity ⟨_, responseKey, type, node, inclusion, ⟨typeInfo, direct⟩⟩ :: rest, e =>
      (match e.field? responseKey with
        | some (.entity g) =>
            responseKey == g.responseKey && type == g.type && node == g.node
              && inclusion == g.inclusion && typeInfo == g.selectionSet.typeInfo
              && same direct g.selectionSet.direct
        | _ => false)
        && sameFields rest e

/-- Whether each of the inline fragments has an equal one in the set. -/
def sameInlines : List InlineSpread → DirectSelections → Bool
  | [], _ => true
  | ⟨⟨typeInfo, direct⟩, deferral⟩ :: rest, e =>
      (match e.inlineFragments.find? fun s => s.key == (typeInfo.scopePath.last?, deferral) with
        | some s =>
            typeInfo == s.typeInfo && deferral == s.deferral
              && same direct s.selectionSet.direct
        | none => false)
        && sameInlines rest e

end

end DirectSelections

instance : BEq DirectSelections := ⟨DirectSelections.same⟩

instance : BEq SelectionSet := ⟨fun s t => s.typeInfo == t.typeInfo && s.direct == t.direct⟩

instance : BEq EntityField := ⟨fun f g =>
  f.responseKey == g.responseKey && f.type == g.type && f.node == g.node
    && f.inclusion == g.inclusion && f.selectionSet == g.selectionSet⟩

end SelectionGraph
