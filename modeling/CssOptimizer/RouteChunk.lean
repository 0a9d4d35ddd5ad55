import CssOptimizer.Collection.NameMap
import CssOptimizer.Collection.NameSet
import CssOptimizer.Selector
import CssOptimizer.Sheet.Parse
import CssOptimizer.Sheet.Print

/-!
# Chunks by route

A stylesheet is cut into one chunk for each route and a shared chunk.  Names listed under several
routes, base rules and resources go to the shared chunk, which comes first.

* `RouteMap`                 the names that each route uses;
* `RouteChunk.slug`          the name of a route's chunk;
* `RouteChunk.narrow`        the nodes of a chunk: at-rules are narrowed to what they hold of it;
* `RouteChunk.splitNodes`    all chunks of a stylesheet;
* `RouteChunk.duplicate?`    the first chunk name that comes twice.
-/

namespace CssOptimizer

abbrev RouteMap := NameMap (List String)

/-- a part of a stylesheet with the names that brought its rules into it -/
structure RouteChunk where
  name : String
  nodes : List Node
  names : NameSet

namespace RouteChunk

/-! ## names -/

/-- the name of the chunk for several routes -/
def sharedName : String := "shared"

/-- the text of a route with hyphens for slashes, and none at its ends -/
def slugChars (route : List Char) : List Char :=
  Text.dropEndWhile (· == '-')
    ((route.map fun c => if c = '/' then '-' else c).dropWhile (· == '-'))

def slug (route : String) : String :=
  let cs := slugChars route.toList
  if cs.isEmpty then "index" else String.ofList cs

/-- a listed name without the dots and hashes before it -/
def normalName (name : String) : String :=
  Text.onString (fun cs => (Text.trim cs).dropWhile fun c => c == '.' || c == '#') name

/-- the names that a route lists -/
def listed (names : List String) : NameSet := .ofList (names.map normalName)

/-- the names that more than one route lists -/
def sharedNames (routes : RouteMap) : NameSet :=
  let sets := routes.values.map listed
  (NameSet.ofList (sets.flatMap (·.toList))).filter fun name =>
    1 < sets.countP (·.contains name)

/-! ## nodes -/

/-- whether a selector names one of the names -/
def matchesNames (names : NameSet) (selector : String) : Bool :=
  (Selector.classes selector ++ Selector.ids selector).any names.contains

mutual

/-- a node as far as it belongs to a chunk: rules that pass the test; resources and at-rules that
hold nothing but declarations if `resources` is set; at-rules that hold something of the chunk -/
def narrowNode (resources : Bool) (keep : String → Bool) : Node → Option Node
  | .declaration _ => none
  | .rule selector body => if keep selector then some (.rule selector body) else none
  | .atRule name params children =>
    if Node.isResource (.atRule name params children) || children.all Node.isDeclaration then
      if resources then some (.atRule name params children) else none
    else
      match narrow resources keep children with
      | [] => none
      | kept => some (.atRule name params kept)

def narrow (resources : Bool) (keep : String → Bool) : List Node → List Node
  | [] => []
  | node :: nodes => (narrowNode resources keep node).toList ++ narrow resources keep nodes

end

/-! ## chunks -/

/-- the chunk for several routes -/
def shared (names : NameSet) (nodes : List Node) : RouteChunk where
  name := sharedName
  nodes := narrow true (fun s => Selector.isBase s || matchesNames names s) nodes
  names := names

/-- the chunk of one route; its names are those that are not shared -/
def ofRoute (sharedNames : NameSet) (nodes : List Node) (route : String)
    (names : List String) : RouteChunk :=
  let own := (listed names).filter (!sharedNames.contains ·)
  { name := slug route
    nodes := narrow false (fun s => !Selector.isBase s && matchesNames own s) nodes
    names := own }

def splitNodes (routes : RouteMap) (nodes : List Node) : List RouteChunk :=
  let names := sharedNames routes
  shared names nodes :: routes.entries.map fun (route, listed) =>
    ofRoute names nodes route listed

/-- the chunks of a stylesheet -/
def split (routes : RouteMap) (css : String) : List RouteChunk := splitNodes routes (parse css)

/-- the text of a chunk -/
def css (minify : Bool) (chunk : RouteChunk) : String := printSheet minify chunk.nodes

/-- the first of some names that an earlier one equals -/
def firstRepeated : List String → List String → Option String
  | _, [] => none
  | seen, name :: names =>
    if name ∈ seen then some name else firstRepeated (name :: seen) names

def duplicate? (chunks : List RouteChunk) : Option String :=
  firstRepeated [] (chunks.map (·.name))

end RouteChunk
end CssOptimizer
