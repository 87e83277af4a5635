/-!
# Positions and spans

A position follows a reader through a text, a span says where a token or a node stands. Lines and
columns count from one, a column is one character wide, offsets count the bytes of the UTF-8 form.
-/

namespace PolicyLang

structure Pos where
  line : Nat := 1
  column : Nat := 1
  offset : Nat := 0
deriving DecidableEq, Repr

/-- The position behind one more character; only a line feed starts a line. -/
def Pos.next (p : Pos) (c : Char) : Pos :=
  if c = '\n' then ⟨p.line + 1, 1, p.offset + c.utf8Size⟩
  else ⟨p.line, p.column + 1, p.offset + c.utf8Size⟩

def Pos.after (p : Pos) (cs : List Char) : Pos := cs.foldl Pos.next p

@[simp] theorem Pos.after_nil (p : Pos) : p.after [] = p := rfl

@[simp] theorem Pos.after_cons (p : Pos) (c : Char) (cs : List Char) :
    p.after (c :: cs) = (p.next c).after cs := rfl

theorem Pos.after_append (p : Pos) (cs ds : List Char) :
    p.after (cs ++ ds) = (p.after cs).after ds := List.foldl_append

/-- Where something begins, with its byte range `start ≤ · < stop`. -/
structure Span where
  line : Nat := 1
  column : Nat := 1
  start : Nat := 0
  stop : Nat := 0
deriving DecidableEq, Repr

def Span.between (p q : Pos) : Span := ⟨p.line, p.column, p.offset, q.offset⟩

/-- The empty span behind `s`. -/
def Span.tail (s : Span) : Span := { s with start := s.stop }

/-- Stretches a span over a later one. It never shrinks: of the two ends the larger one counts. -/
def Span.to (s t : Span) : Span := { s with stop := max s.stop t.stop }

end PolicyLang
