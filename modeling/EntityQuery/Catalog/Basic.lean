import EntityQuery.Text.ReadFailure

/-!
# Entity catalogs

An entity type has scalar properties, a primary key and navigations. A navigation is a
relationship edge: its foreign key lives on the dependent side and its principal key on the other
one, and `NavigationEdge.sourceKey` and `targetKey` say which of them the declaring entity reads.
-/

namespace EntityQuery

/-- The primitive type of a mapped property. -/
inductive ScalarType where
  | int
  | long
  | float
  | bool
  | string
  | guid
  | datetime
  deriving DecidableEq, Repr, Inhabited

namespace ScalarType

def name : ScalarType → String
  | int => "int"
  | long => "long"
  | float => "float"
  | bool => "bool"
  | string => "string"
  | guid => "guid"
  | datetime => "datetime"

def all : List ScalarType := [int, long, float, bool, string, guid, datetime]

def ofName? (s : String) : Option ScalarType := all.find? (·.name == s)

end ScalarType

structure Property where
  name : String
  dataType : ScalarType
  nullable : Bool
  deriving DecidableEq, Repr, Inhabited

/-- A relationship edge from its declaring entity to `target`. The foreign key lives on the
dependent side: the declaring entity if the edge leads to its principal, otherwise the target. -/
structure NavigationEdge where
  name : String
  target : String
  foreignKey : List String
  principalKey : List String
  toPrincipal : Bool
  isCollection : Bool
  isRequired : Bool
  deriving DecidableEq, Repr, Inhabited

namespace NavigationEdge

/-- The key columns read from the entity that declares the edge. -/
def sourceKey (e : NavigationEdge) : List String :=
  if e.toPrincipal then e.foreignKey else e.principalKey

/-- The key columns read from the target of the edge. -/
def targetKey (e : NavigationEdge) : List String :=
  if e.toPrincipal then e.principalKey else e.foreignKey

/-- A hop along the edge can find no row: the relationship is not required, or it runs from the
principal to a dependent. -/
def isOptional (e : NavigationEdge) : Bool := !e.isRequired || !e.toPrincipal

end NavigationEdge

structure EntityType where
  name : String
  primaryKey : List String
  properties : List Property
  navigations : List NavigationEdge
  deriving DecidableEq, Repr, Inhabited

/-- What can be wrong with a catalog, with a look-up in it, or with reading it. -/
inductive CatalogError where
  | entityNotFound (entity : String)
  | duplicateEntity (entity : String)
  | propertyNotFound (entity property : String)
  | danglingNavigation (entity navigation target : String)
  | missingPrimaryKey (entity : String)
  | keyShapeMismatch (entity navigation : String) (foreignKey principalKey : List String)
  | collectionToPrincipal (entity navigation : String)
  | unreadable (path : String) (failure : ReadFailure)
  | malformed
  deriving DecidableEq, Repr

namespace CatalogError

/-- A malformed document has no wording of its own: where and how it is malformed is the reader's
business. -/
def message : CatalogError → String
  | entityNotFound entity => s!"No entity type found for `{entity}`"
  | duplicateEntity entity => s!"Entity type `{entity}` is defined more than once"
  | propertyNotFound entity property =>
    s!"Property `{property}` not found on entity type `{entity}`"
  | danglingNavigation entity navigation target =>
    s!"Navigation `{entity}.{navigation}` targets unknown entity type `{target}`"
  | missingPrimaryKey entity => s!"Entity type `{entity}` has no primary key"
  | keyShapeMismatch entity navigation foreignKey principalKey =>
    s!"Navigation `{entity}.{navigation}`: foreign key (" ++ ", ".intercalate foreignKey ++
      ") does not match principal key (" ++ ", ".intercalate principalKey ++ ")"
  | collectionToPrincipal entity navigation =>
    s!"Navigation `{entity}.{navigation}` is a collection but points to its principal"
  | unreadable path failure => s!"Failed to read catalog file: {path}: {failure.reason}"
  | malformed => "Failed to parse catalog"

end CatalogError

namespace EntityType

def navigation? (t : EntityType) (name : String) : Option NavigationEdge :=
  t.navigations.find? (·.name == name)

def property? (t : EntityType) (name : String) : Option Property :=
  t.properties.find? (·.name == name)

def property (t : EntityType) (name : String) : Except CatalogError Property :=
  match t.property? name with
  | some p => .ok p
  | none => .error (.propertyNotFound t.name name)

/-- The properties of the given names, or the first name that is not declared. -/
def propertiesNamed (t : EntityType) : List String → Except CatalogError (List Property)
  | [] => .ok []
  | name :: names => do return (← t.property name) :: (← t.propertiesNamed names)

def keyProperties (t : EntityType) : Except CatalogError (List Property) :=
  t.propertiesNamed t.primaryKey

end EntityType

/-- Entity types by name. Nothing is promised about them; `Catalog.check` says when they are
consistent. -/
structure Catalog where
  types : List EntityType
  deriving DecidableEq, Repr, Inhabited

namespace Catalog

def type? (c : Catalog) (name : String) : Option EntityType := c.types.find? (·.name == name)

def type (c : Catalog) (name : String) : Except CatalogError EntityType :=
  match c.type? name with
  | some t => .ok t
  | none => .error (.entityNotFound name)

/-- Of two types of one name the later one counts. -/
def ofTypes (types : List EntityType) : Catalog :=
  ⟨types.foldr (fun t rest => if rest.any (·.name == t.name) then rest else t :: rest) []⟩

end Catalog

end EntityQuery
