import Frontend.Error
import Frontend.Explore
import Frontend.OrdSet

/-!
# Context-free grammars

A grammar lists its nonterminals in order of declaration, each with its bodies in order of
writing: that order numbers the productions and decides which reduction wins a conflict. A
symbol that occurs in a body and heads no rule is a terminal.
-/

namespace Frontend

/-- The mark after the last token of an input. -/
def endMarker : String := "$"

/-- What stands for the empty word in grammars and among first symbols. -/
def emptySymbol : String := "&"

/-- The symbols on the right of a production. -/
abbrev Body := List String

/-- A production `head → body`. -/
structure Production where
  head : String
  body : Body
  deriving DecidableEq, Repr

namespace Production

/-- The text of the body; an empty one is written as the empty word. -/
def bodyText (p : Production) : String :=
  if p.body.isEmpty then emptySymbol else String.intercalate " " p.body

/-- The text of a production. -/
def render (p : Production) : String := p.head ++ " → " ++ p.bodyText

end Production

/-! ## Rules -/

/-- Heads with their bodies, each head once, in order of declaration. -/
structure Rules where
  toList : List (String × List Body)
  nodup : (toList.map Prod.fst).Nodup

namespace Rules

theorem toList_inj {r s : Rules} : r.toList = s.toList ↔ r = s := by
  cases r; cases s; simp

instance : DecidableEq Rules := fun _ _ => decidable_of_iff _ toList_inj

/-- No rules. -/
def empty : Rules := ⟨[], List.nodup_nil⟩

instance : EmptyCollection Rules := ⟨empty⟩

/-- Puts `f` of the bodies of a head in their place; a new head starts without any. -/
def write (head : String) (f : List Body → List Body) :
    List (String × List Body) → List (String × List Body)
  | [] => [(head, f [])]
  | (h, bodies) :: rest =>
    if h = head then (h, f bodies) :: rest else (h, bodies) :: write head f rest

theorem mem_heads_write {head h : String} {f : List Body → List Body}
    {l : List (String × List Body)} :
    h ∈ (write head f l).map Prod.fst ↔ h = head ∨ h ∈ l.map Prod.fst := by
  induction l with
  | nil => simp [write]
  | cons e l ih =>
    obtain ⟨k, bodies⟩ := e
    simp only [write]
    split
    · next e => subst e; simp
    · simp only [List.map_cons, List.mem_cons, ih]
      exact or_left_comm

theorem nodup_write {head : String} {f : List Body → List Body}
    {l : List (String × List Body)} (h : (l.map Prod.fst).Nodup) :
    ((write head f l).map Prod.fst).Nodup := by
  induction l with
  | nil => simp [write]
  | cons e l ih =>
    obtain ⟨k, bodies⟩ := e
    obtain ⟨hk, hl⟩ := List.nodup_cons.1 h
    simp only [write]
    split
    · exact List.nodup_cons.2 ⟨hk, hl⟩
    · next hne =>
      exact List.nodup_cons.2 ⟨fun hm => (mem_heads_write.1 hm).elim hne hk, ih hl⟩

/-- Lets `bodies` be the bodies of a head. -/
def set (r : Rules) (head : String) (bodies : List Body) : Rules :=
  ⟨write head (fun _ => bodies) r.toList, nodup_write r.nodup⟩

/-- Gives a head further bodies. -/
def add (r : Rules) (head : String) (bodies : List Body) : Rules :=
  ⟨write head (· ++ bodies) r.toList, nodup_write r.nodup⟩

/-- Changes the bodies of every head. -/
def mapBodies (f : List Body → List Body) (r : Rules) : Rules where
  toList := r.toList.map fun (h, bodies) => (h, f bodies)
  nodup := by
    rw [List.map_map]
    exact r.nodup

/-- The heads in order of declaration. -/
def heads (r : Rules) : List String := r.toList.map Prod.fst

/-- The bodies of a head. -/
def bodiesOf (r : Rules) (head : String) : List Body := (r.toList.lookup head).getD []

end Rules

/-! ## Grammars -/

/-- A grammar with its start symbol. -/
structure Grammar where
  start : String
  rules : Rules
  deriving DecidableEq

namespace Grammar

/-- Leaves the empty word out of the bodies, and keeps equal bodies once. -/
def normalizeBodies (bodies : List Body) : List Body :=
  newcomers [] (bodies.map fun body => body.filter (· ≠ emptySymbol))

/-- The grammar of a start symbol and rules. There must be a production, and one for the
start symbol. -/
def ofRules (start : String) (rules : Rules) : Except Error Grammar :=
  if rules.toList.all fun (_, bodies) => bodies.isEmpty then .error .emptyGrammar
  else if (rules.bodiesOf start).isEmpty then .error (.unknownStart start)
  else .ok ⟨start, rules.mapBodies normalizeBodies⟩

/-- The nonterminals in order of declaration. -/
def nonterminals (g : Grammar) : List String := g.rules.heads

/-- Tells whether a symbol heads a rule. -/
def isNonterminal (g : Grammar) (symbol : String) : Bool := g.nonterminals.contains symbol

/-- The productions in order of declaration. -/
def productions (g : Grammar) : List Production :=
  g.rules.toList.flatMap fun (head, bodies) => bodies.map fun body => ⟨head, body⟩

/-- The symbols of the bodies that head no rule. -/
def terminals (g : Grammar) : OrdSet String :=
  OrdSet.ofList ((g.productions.flatMap Production.body).filter fun s => !g.isNonterminal s)

/-- Tells whether a symbol is a terminal. -/
def isTerminal (g : Grammar) (symbol : String) : Bool := decide (symbol ∈ g.terminals)

/-- Checks that every terminal is among the tokens of a lexer. -/
def checkTokens (g : Grammar) (tokens : List String) : Except Error Unit :=
  match (g.terminals.filter fun t => !tokens.contains t).toList with
  | [] => .ok ()
  | missing => .error (.undefinedTokens missing)

end Grammar

end Frontend
