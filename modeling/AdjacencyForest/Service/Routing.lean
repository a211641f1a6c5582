import AdjacencyForest.Text.Percent

/-!
# Routing

The routes of the service in the order in which they are tried, each a method and a pattern of path
segments. A path that fits a pattern of another method is refused as such; one that fits none is
tried again without the slashes at its end.

Main statement: what is dispatched fits the pattern of its route (`fits_of_dispatchIn`).
-/
namespace AdjacencyForest.Service

/-- What a request asks for. -/
inductive Action where
  | exportNodes
  | importNodes
  | listNodes
  | createNode
  | showNode
  | updateNode
  | deleteNode
  | ancestors
  | descendants
  | siblings
  | searchParents
  | wholeTree
  | roots
  | leaves
  | children
  | pathTo
  deriving DecidableEq, Repr

/-- A part of a path pattern: a fixed segment, or the key of a node. -/
inductive PathPart where
  | fixed (segment : String)
  | key
  deriving DecidableEq, Repr

/-- A route. -/
structure Route where
  method : String
  parts : List PathPart
  action : Action

def routes : List Route :=
  let nodes := [PathPart.fixed "api", .fixed "nodes"]
  let tree := [PathPart.fixed "api", .fixed "tree"]
  [⟨"GET", nodes ++ [.fixed "export"], .exportNodes⟩,
    ⟨"POST", nodes ++ [.fixed "import"], .importNodes⟩,
    ⟨"GET", nodes, .listNodes⟩,
    ⟨"POST", nodes, .createNode⟩,
    ⟨"GET", nodes ++ [.key], .showNode⟩,
    ⟨"PUT", nodes ++ [.key], .updateNode⟩,
    ⟨"DELETE", nodes ++ [.key], .deleteNode⟩,
    ⟨"GET", nodes ++ [.key, .fixed "ancestors"], .ancestors⟩,
    ⟨"GET", nodes ++ [.key, .fixed "descendants"], .descendants⟩,
    ⟨"GET", nodes ++ [.key, .fixed "siblings"], .siblings⟩,
    ⟨"GET", [.fixed "api", .fixed "search-parents"], .searchParents⟩,
    ⟨"GET", tree, .wholeTree⟩,
    ⟨"GET", tree ++ [.fixed "roots"], .roots⟩,
    ⟨"GET", tree ++ [.fixed "leaves"], .leaves⟩,
    ⟨"GET", tree ++ [.fixed "children", .key], .children⟩,
    ⟨"GET", tree ++ [.fixed "path", .key], .pathTo⟩]

def splitPath (path : List Char) : List (List Char) :=
  path.foldr (fun c segments =>
    if c = '/' then [] :: segments
    else match segments with
      | segment :: rest => (c :: segment) :: rest
      | [] => [[c]]) [[]]

/-- The key text in segments that fit a pattern: `some ""` if the pattern has no key. A line end may
follow the last segment. -/
def fit? : List PathPart → List (List Char) → Option String
  | [], [] => some ""
  | [.fixed segment], [given] =>
    if given = segment.toList ∨ given = segment.toList ++ ['\n'] then some "" else none
  | .fixed segment :: parts, given :: rest =>
    if given = segment.toList then fit? parts rest else none
  | .key :: parts, given :: rest =>
    if given.isEmpty then none
    else (fit? parts rest).map fun _ => String.ofList given
  | _, _ => none

def Route.fit? (route : Route) (path : List Char) : Option String :=
  match splitPath path with
  | [] :: segments => Service.fit? route.parts segments
  | _ => none

/-- Where a request goes. -/
inductive Dispatch where
  | action (action : Action) (key : String)
  | wrongMethod
  | notFound
  deriving DecidableEq, Repr

/-- The route that a method and a path fit, in a list of routes. -/
def dispatchIn (routes : List Route) (method : String) (path : List Char) : Dispatch :=
  match routes.findSome? fun route =>
      if route.method = method then (route.fit? path).map fun key => (route.action, key)
      else none with
  | some found => .action found.1 found.2
  | none => if routes.any fun route => (route.fit? path).isSome then .wrongMethod else .notFound

def withoutFinalSlashes (path : List Char) : List Char :=
  (path.reverse.dropWhile (· == '/')).reverse

/-- The path of an address: what comes before a query or a fragment, with its escapes read. -/
def addressPath (address : String) : List Char :=
  (Text.unescapePath (String.ofList
    (address.toList.takeWhile fun c => c != '?' && c != '#'))).toList

def dispatch (method address : String) : Dispatch :=
  let path := addressPath address
  match dispatchIn routes method path with
  | .notFound =>
    if path.getLast? == some '/' then dispatchIn routes method (withoutFinalSlashes path)
    else .notFound
  | found => found

theorem fits_of_dispatchIn {routes : List Route} {method : String} {path : List Char}
    {action : Action} {key : String} (found : dispatchIn routes method path = .action action key) :
    ∃ route ∈ routes,
      route.method = method ∧ route.action = action ∧ route.fit? path = some key := by
  unfold dispatchIn at found
  split at found
  next pair first =>
    obtain ⟨route, member, fits⟩ := List.exists_of_findSome?_eq_some first
    split at fits
    next same =>
      obtain ⟨text, fitted, rfl⟩ := Option.map_eq_some_iff.mp fits
      simp only [Dispatch.action.injEq] at found
      exact ⟨route, member, same, found.1, by rw [fitted, found.2]⟩
    next => simp at fits
  next => split at found <;> simp at found

end AdjacencyForest.Service
