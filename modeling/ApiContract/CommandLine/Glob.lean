import ApiContract.CommandLine.Host
import ApiContract.Text.Split

set_option autoImplicit false

namespace ApiContract.CommandLine.Glob

inductive Flaw where
  | manyStars (position : Nat)
  | splitDepth (position : Nat)
  | openClass (position : Nat)
  deriving DecidableEq, Repr

def Flaw.message : Flaw → String
  | .manyStars n => report n "wildcards are either regular `*` or recursive `**`"
  | .splitDepth n => report n "recursive wildcards must form a single path component"
  | .openClass n => report n "invalid range pattern"
where
  report (position : Nat) (reason : String) : String :=
    "Pattern syntax error near position " ++ toString position ++ ": " ++ reason

inductive Mark where
  | exactly (c : Char)
  | anyChar
  | anyRun
  | anyDepth
  | within (ranges : List (Char × Char))
  | outside (ranges : List (Char × Char))
  deriving DecidableEq, Repr

abbrev Segment := List Mark

def rangesOf : List Char → List (Char × Char)
  | a :: '-' :: b :: rest => (a, b) :: rangesOf rest
  | a :: rest => (a, a) :: rangesOf rest
  | [] => []

def cutAtBracket? : List Char → Option (List Char × List Char)
  | [] => none
  | c :: rest =>
      if c = ']' then some ([], rest)
      else (cutAtBracket? rest).map fun cut => (c :: cut.1, cut.2)

theorem length_cutAtBracket? {cs : List Char} {cut : List Char × List Char}
    (h : cutAtBracket? cs = some cut) : cut.1.length + cut.2.length < cs.length := by
  induction cs generalizing cut with
  | nil => simp [cutAtBracket?] at h
  | cons c rest ih =>
    simp only [cutAtBracket?] at h
    split at h
    next =>
      cases h
      simp
    next =>
      obtain ⟨inner, found, rfl⟩ := Option.map_eq_some_iff.1 h
      have := ih found
      simp only [List.length_cons]
      omega

def readMarks (position : Nat) (atStart : Bool) (cs : List Char) : Except Flaw Segment :=
  match cs with
  | [] => .ok []
  | '*' :: '*' :: '*' :: _ => .error (.manyStars (position + 2))
  | '*' :: '*' :: rest =>
      if atStart then
        match rest with
        | [] => .ok [.anyDepth]
        | '/' :: rest => do return .anyDepth :: (← readMarks (position + 3) true rest)
        | _ => .error (.splitDepth (position + 2))
      else .error (.splitDepth (position - 1))
  | '*' :: rest => do return .anyRun :: (← readMarks (position + 1) false rest)
  | '?' :: rest => do return .anyChar :: (← readMarks (position + 1) false rest)
  | '[' :: '!' :: first :: rest =>
      match found : cutAtBracket? rest with
      | none => .error (.openClass position)
      | some (inner, rest) => do
          let marks ← readMarks (position + inner.length + 4) false rest
          return .outside (rangesOf (first :: inner)) :: marks
  | '[' :: '!' :: _ => .error (.openClass position)
  | '[' :: first :: rest =>
      match found : cutAtBracket? rest with
      | none => .error (.openClass position)
      | some (inner, rest) => do
          let marks ← readMarks (position + inner.length + 3) false rest
          return .within (rangesOf (first :: inner)) :: marks
  | '[' :: _ => .error (.openClass position)
  | c :: rest => do return .exactly c :: (← readMarks (position + 1) (c = '/') rest)
  termination_by cs.length
  decreasing_by
    all_goals simp_wf
    all_goals try
      have := length_cutAtBracket? found
      simp only at this
    all_goals omega

def isWithin (ranges : List (Char × Char)) (c : Char) : Bool :=
  ranges.any fun range => range.1 ≤ c && c ≤ range.2

def Mark.covers (mark : Mark) (c : Char) : Bool :=
  match mark with
  | .exactly d => c = d
  | .anyChar => true
  | .within ranges => isWithin ranges c
  | .outside ranges => !isWithin ranges c
  | .anyRun | .anyDepth => false

def Mark.isRun (mark : Mark) : Bool :=
  match mark with
  | .anyRun | .anyDepth => true
  | _ => false

def holdsFrom : List Bool → List Bool
  | [] => []
  | here :: behind => (here || behind.any id) :: holdsFrom behind

/-- Whether the segment accepts the name, the name without its first character, and so on to the
empty name. All are found together, so that many stars take no longer than one each. -/
def acceptsEach : Segment → List Char → List Bool
  | [], name => name.map (fun _ => false) ++ [true]
  | mark :: rest, name =>
      let behind := acceptsEach rest name
      if mark.isRun then holdsFrom behind
      else List.zipWith (fun c holds => mark.covers c && holds) name behind.tail ++ [false]

def accepts (segment : Segment) (name : List Char) : Bool :=
  (acceptsEach segment name).headD false

def plainName? : Segment → Option (List Char)
  | [] => some []
  | .exactly c :: rest => (plainName? rest).map (c :: ·)
  | _ :: _ => none

def isDepth : Segment → Bool
  | .anyDepth :: _ => true
  | _ => false

structure Search where
  start : String
  segments : List Segment
  directoriesOnly : Bool
  deriving Repr

def segmentTexts (cs : List Char) : List (List Char) :=
  -- A slash at the end closes the last segment.
  let pieces := Text.splitChars '/' cs
  if pieces.getLast? = some [] then pieces.dropLast else pieces

def read (text : String) : Except Flaw Search := do
  let _ ← readMarks 0 true text.toList
  let (start, rest) := match text.toList with
    | '/' :: rest => ("/", rest)
    | rest => (".", rest)
  return {
    start
    segments := ← (segmentTexts rest).mapM (readMarks 0 true)
    directoriesOnly := Text.endsWith text "/" }

def looksLikeGlob (text : String) : Bool :=
  text.toList.any fun c => c = '*' || c = '?' || c = '[' || c = '\x7b'

section Expansion

variable {m : Type → Type} [Monad m]

structure Place where
  path : String
  name : String
  isDirectory : Bool

def isHere (path : String) : Bool :=
  match Text.splitChars '/' path.toList with
  | ['.'] :: rest => rest.all fun piece => piece = ['.'] || piece = []
  | _ => false

def join (path name : String) : String :=
  if Text.endsWith path "/" then path ++ name else path ++ "/" ++ name

def child (path name : String) : String :=
  -- Names in the starting directory are not written behind a dot.
  if isHere path then name else join path name

def placeAt (host : Host m) (path name : String) : m Place := do
  return ⟨path, name, ← host.isDirectory path⟩

def emit (directoriesOnly : Bool) (place : Place) : List String :=
  if directoriesOnly && !place.isDirectory then [] else [place.path]

def arrive (descend : List Segment → Place → m (List String)) (directoriesOnly : Bool)
    (segments : List Segment) (place : Place) : m (List String) :=
  match segments with
  | [] => return emit directoriesOnly place
  | _ => descend segments place

def visitNamed (descend : List Segment → Place → m (List String)) (directoriesOnly : Bool)
    (segments : List Segment) (place : Place) : m (List String) :=
  match segments with
  | [] => return []
  | segment :: rest =>
      if accepts segment place.name.toList then arrive descend directoriesOnly rest place
      else return []

def visit (descend : List Segment → Place → m (List String)) (directoriesOnly : Bool)
    (segments : List Segment) (place : Place) : m (List String) :=
  -- A directory in the reach of two stars matches them, and so does all that it holds.
  match segments with
  | [] => return []
  | segment :: rest =>
      if isDepth segment then do
        let rest := rest.dropWhile isDepth
        let here ← match rest with
          | [] => pure (if place.isDirectory then [place.path] else [])
          | _ => visitNamed descend directoriesOnly rest place
        let below ← if place.isDirectory then descend (segment :: rest) place else pure []
        return here ++ below
      else visitNamed descend directoriesOnly segments place

def dotPlaces (host : Host m) (segment : Segment) (place : Place) : m (List Place) :=
  if segment.head? = some (.exactly '.') then
    ["..", "."].filterMapM fun name =>
      if accepts segment name.toList then some <$> placeAt host (join place.path name) name
      else pure none
  else return []

def descend (host : Host m) (directoriesOnly : Bool) : Nat → List Segment → Place →
    m (List String)
  -- The matches below a place; each round goes down a segment or a directory.
  | 0, _, _ => return []
  | _, [], _ => return []
  | rounds + 1, segment :: rest, place => do
      let deeper := descend host directoriesOnly rounds
      match plainName? segment with
      | some name =>
          let name := String.ofList name
          let path := child place.path name
          let isThere ← if name = "." || name = ".." then pure place.isDirectory
            else host.isPresent path
          if isThere then arrive deeper directoriesOnly rest (← placeAt host path name)
          else return []
      | none =>
          if place.isDirectory then
            let dots ← dotPlaces host segment place
            let names := (← host.names place.path).mergeSort fun a b => a ≤ b
            let places ← names.mapM fun name => placeAt host (child place.path name) name
            let before ← dots.mapM (arrive deeper directoriesOnly rest)
            let after ← places.mapM (visit deeper directoriesOnly (segment :: rest))
            return (before ++ after).flatten
          else return []

/-- No path is longer than 4096 bytes, so none has more levels. -/
def levelLimit : Nat := 4096

def expand (host : Host m) (search : Search) : m (List String) := do
  let start ← placeAt host search.start search.start
  descend host search.directoriesOnly (levelLimit + search.segments.length) search.segments start

end Expansion

end ApiContract.CommandLine.Glob
