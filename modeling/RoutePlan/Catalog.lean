import RoutePlan.Settings

/-!
Catalogs: resources by name, made from a list of settings. The first entry that fails decides.
-/
namespace RoutePlan

inductive CatalogError where
  | invalidYaml
  | invalidResource (name : Text) (reason : RouteError)
  | duplicateName (name : Text)
  deriving DecidableEq

namespace CatalogError

def message : CatalogError → Text
  | .invalidYaml => "Invalid yaml configuration".toList
  | .invalidResource name _ => "Invalid resource '".toList ++ name ++ ['\'']
  | .duplicateName name =>
    "Invalid resource configuration: Duplicate resource name: ".toList ++ name

def cause? : CatalogError → Option Text
  | .invalidYaml => none
  | .invalidResource _ reason => some reason.message
  | .duplicateName name => some (duplicateName name).message

end CatalogError

abbrev Catalog := OrderedDict Resource

namespace Catalog

/-- One more resource. Whether its URL is a template counts before whether its name is new. -/
def add (catalog : Catalog) (settings : Settings) : Except CatalogError Catalog :=
  match settings.toResource with
  | .error reason => .error (.invalidResource settings.name reason)
  | .ok resource =>
    if catalog.contains settings.name then .error (.duplicateName settings.name)
    else .ok (catalog.insert settings.name resource)

def ofSettings (entries : List Settings) : Except CatalogError Catalog :=
  entries.foldlM add .empty

def parse (text : Text) : Except CatalogError Catalog :=
  match Settings.parse? text with
  | none => .error .invalidYaml
  | some entries => ofSettings entries

end Catalog
end RoutePlan
