namespace SchemaCodec.Text

/-! Replacing texts by others, all in one pass: what has been put in is not looked at again. -/

variable {α : Type} [DecidableEq α]

/-- Go through a text from the left, past the first symbols, which are replaced already. At each
symbol the first pair counts whose old text begins there; old texts are not empty. -/
def replaceFrom (pairs : List (List α × List α)) : (skip : Nat) → List α → List α
  | _, [] => []
  | skip + 1, _ :: rest => replaceFrom pairs skip rest
  | 0, symbol :: rest =>
    match pairs.find? fun pair => pair.1.isPrefixOf (symbol :: rest) with
    | some (old, new) => new ++ replaceFrom pairs (old.length - 1) rest
    | none => symbol :: replaceFrom pairs 0 rest

def replaceAll (pairs : List (List α × List α)) (text : List α) : List α :=
  replaceFrom pairs 0 text

variable {pairs : List (List α × List α)} {symbol : α} {new rest : List α}

private theorem replaceFrom_append (gone text : List α) :
    replaceFrom pairs gone.length (gone ++ text) = replaceAll pairs text := by
  induction gone with
  | nil => rfl
  | cons symbol gone ih => exact ih

theorem replaceAll_hit (old : List α)
    (h : pairs.find? (fun pair => pair.1.isPrefixOf (symbol :: (old ++ rest))) =
      some (symbol :: old, new)) :
    replaceAll pairs (symbol :: (old ++ rest)) = new ++ replaceAll pairs rest := by
  rw [replaceAll, replaceFrom, h]
  exact congrArg (new ++ ·) (replaceFrom_append old rest)

theorem replaceAll_miss
    (h : pairs.find? (fun pair => pair.1.isPrefixOf (symbol :: rest)) = none) :
    replaceAll pairs (symbol :: rest) = symbol :: replaceAll pairs rest := by
  rw [replaceAll, replaceFrom, h]
  rfl

/-! One pair, with an old text of two symbols -/

variable {first second other : α}

theorem replaceAll_pair (rest : List α) :
    replaceAll [([first, second], new)] (first :: second :: rest) =
      new ++ replaceAll [([first, second], new)] rest :=
  replaceAll_hit [second] (by simp)

theorem replaceAll_not_first (hother : other ≠ first) (rest : List α) :
    replaceAll [([first, second], new)] (other :: rest) =
      other :: replaceAll [([first, second], new)] rest :=
  replaceAll_miss (by simp [Ne.symm hother])

theorem replaceAll_not_second (hother : other ≠ second) (rest : List α) :
    replaceAll [([first, second], new)] (first :: other :: rest) =
      first :: replaceAll [([first, second], new)] (other :: rest) :=
  replaceAll_miss (by simp [Ne.symm hother])

end SchemaCodec.Text
