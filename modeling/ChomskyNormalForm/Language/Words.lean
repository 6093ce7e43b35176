import ChomskyNormalForm.Fault
import ChomskyNormalForm.Grammar.Basic
import Std.Data.TreeSet.Lemmas

namespace ChomskyNormalForm

abbrev Word := List Char

/-- A word as a text. Its length is kept with it, because words are sorted by length first. -/
structure WordText where
  text : String
  size : Nat
  size_eq : size = text.length

namespace WordText

variable {u v : WordText}

def ofString (s : String) : WordText := ⟨s, s.length, rfl⟩

def append (u v : WordText) : WordText :=
  ⟨u.text ++ v.text, u.size + v.size, by rw [String.length_append, u.size_eq, v.size_eq]⟩

def word (u : WordText) : Word := u.text.toList

@[simp] theorem word_ofString {s : String} : (ofString s).word = s.toList := rfl

@[simp] theorem word_append : (u.append v).word = u.word ++ v.word := String.toList_append

@[simp] theorem length_word : u.word.length = u.size := u.size_eq.symm

theorem word_injective (h : u.word = v.word) : u = v := by
  obtain ⟨s, m, rfl⟩ := u
  obtain ⟨t, n, rfl⟩ := v
  obtain rfl := String.toList_injective h
  rfl

def order : WordText → WordText → Ordering := compareLex (compareOn size) (compareOn text)

instance : Std.TransCmp order :=
  inferInstanceAs (Std.TransCmp (compareLex (compareOn size) (compareOn text)))

instance : Std.LawfulEqCmp order where
  eq_of_compare h :=
    word_injective (congrArg String.toList (Std.LawfulEqCmp.eq_of_compare (compareLex_eq_eq.1 h).2))

end WordText

abbrev WordSet := Std.TreeSet WordText WordText.order

namespace WordSet

def only (s : String) : WordSet := (∅ : WordSet).insert (.ofString s)

@[simp] theorem mem_only {s : String} {w : WordText} : w ∈ only s ↔ .ofString s = w := by
  rw [only, Std.TreeSet.mem_insert, Std.LawfulEqCmp.compare_eq_iff_eq]
  simp

def addAll (ws : WordSet) (new : List WordText) : WordSet := new.foldl .insert ws

@[simp] theorem mem_addAll {ws : WordSet} {new : List WordText} {w : WordText} :
    w ∈ ws.addAll new ↔ w ∈ ws ∨ w ∈ new := by
  unfold addAll
  induction new generalizing ws with
  | nil => simp
  | cons v new ih =>
    rw [List.foldl_cons, ih, Std.TreeSet.mem_insert, Std.LawfulEqCmp.compare_eq_iff_eq,
      List.mem_cons, or_assoc, or_left_comm, eq_comm]

def after (n : Nat) (u : WordText) (vs : List WordText) : List WordText :=
  (vs.filter fun v ↦ u.size + v.size ≤ n).map u.append

theorem mem_after {n : Nat} {u w : WordText} {vs : List WordText} :
    w ∈ after n u vs ↔ ∃ v ∈ vs, u.size + v.size ≤ n ∧ u.append v = w := by
  simp [after, and_assoc]

def concat (n : Nat) (us vs : WordSet) : WordSet :=
  let tails := vs.toList
  us.toList.foldl (fun ws u ↦ ws.addAll (after n u tails)) ∅

theorem mem_concat {n : Nat} {us vs : WordSet} {w : WordText} :
    w ∈ concat n us vs ↔ ∃ u ∈ us, ∃ v ∈ vs, u.size + v.size ≤ n ∧ u.append v = w := by
  have mem_fold (l : List WordText) (ws : WordSet) :
      w ∈ l.foldl (fun ws u ↦ ws.addAll (after n u vs.toList)) ws ↔
      w ∈ ws ∨ ∃ u ∈ l, ∃ v ∈ vs, u.size + v.size ≤ n ∧ u.append v = w := by
    induction l generalizing ws with
    | nil => simp
    | cons u l ih => simp [ih, mem_after, or_assoc]
  rw [concat, mem_fold]
  simp

end WordSet

abbrev WordTable := List (Symbol × WordSet)

namespace WordTable

def words (t : WordTable) (v : Symbol) : WordSet := (t.lookup v).getD ∅

def put (t : WordTable) (v : Symbol) (ws : WordSet) : WordTable :=
  t.map fun e ↦ if e.1 = v then (v, ws) else e

def count (t : WordTable) : Nat := t.foldl (fun n e ↦ n + e.2.size) 0

def prolong (t : WordTable) (n : Nat) (ws : WordSet) : Symbol → WordSet
  | .epsilon => ws
  | .terminal a => ws.concat n (.only a)
  | s => ws.concat n (t.words s)

def yields (t : WordTable) (n : Nat) (b : Body) : WordSet := b.foldl (t.prolong n) (.only "")

def learn (n : Nat) (t : WordTable) (p : Production) : WordTable :=
  t.put p.head ((t.words p.head).addAll (t.yields n p.body).toList)

/-- Learns from all productions, each time with what has been learnt before, until nothing is new,
at most `fuel` times. -/
def saturate (productions : List Production) (n : Nat) : Nat → WordTable → WordTable
  | 0, t => t
  | fuel + 1, t =>
    let next := productions.foldl (learn n) t
    if next.count = t.count then t else saturate productions n fuel next

end WordTable

namespace Grammar

/-- The words up to a length that are derived from each variable. Once all shorter words are there,
each further round but the last finds a word of the next length for one more variable. -/
def wordTable (g : Grammar) (n : Nat) : WordTable :=
  WordTable.saturate g.productions n (g.heads.length * (n + 1)) (g.heads.map (·, ∅))

def derivable (g : Grammar) (n : Nat) : List String :=
  ((g.wordTable n).words g.start).toList.map (·.text)

/-- A list up to a bound; a negative bound counts from the end. -/
def upTo {α : Type} (bound : Option Int) (l : List α) : List α :=
  match bound with
  | none => l
  | some k => l.take (if k < 0 then l.length + k else k).toNat

def words (g : Grammar) (length : Int) : Except Fault (List String) :=
  if length < 0 then .error .negativeLength else .ok (g.derivable length.toNat)

def firstWords (g : Grammar) (length : Int) (bound : Option Int) : Except Fault (List String) :=
  (g.words length).map (upTo bound)

end Grammar

end ChomskyNormalForm
