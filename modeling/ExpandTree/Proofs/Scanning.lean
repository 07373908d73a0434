import ExpandTree.Proofs.Cutting

/-!
Scans of written text. A scan goes from character to character and keeps a state. Query text is
scanned for its parentheses, and strings in single quotes are passed over. A text is sealed against
separators when a scan comes back from it to the depth it started at, was never less deep on the
way, and met none of the separators at that depth. Sealed pieces with a separator between them are
what a cut at that separator finds.
-/
namespace ExpandTree

open Text

section Scans

variable {σ : Type} {next : σ → Char → σ} {P Q : σ → Char → Prop} {s : σ} {a b text : List Char}

/-- Every character of the text is met in a state that allows it. -/
def Along (next : σ → Char → σ) (P : σ → Char → Prop) : σ → List Char → Prop
  | _, [] => True
  | s, c :: rest => P s c ∧ Along next P (next s c) rest

theorem along_append :
    Along next P s (a ++ b) ↔ Along next P s a ∧ Along next P (a.foldl next s) b := by
  induction a generalizing s with
  | nil => simp [Along]
  | cons c rest ih => rw [List.cons_append, Along, Along, ih, List.foldl_cons, and_assoc]

theorem Along.mono (h : Along next P s text) (hle : ∀ s c, P s c → Q s c) :
    Along next Q s text := by
  induction text generalizing s with
  | nil => trivial
  | cons c rest ih => exact ⟨hle s c h.1, ih h.2⟩

/-- What holds at the start and after every step holds at the end. -/
theorem Along.foldl {I : σ → Prop} (h : Along next (fun s c => I (next s c)) s text) (hs : I s) :
    I (text.foldl next s) := by
  induction text generalizing s with
  | nil => exact hs
  | cons c rest ih => exact ih h.2 h.1

end Scans

/-- Where a scan of query text stands: how many more parentheses were opened than closed, and
whether it is inside a string. -/
structure Scan where
  depth : Int
  quoted : Bool
  deriving DecidableEq

namespace Scan

def outside (depth : Int) : Scan := ⟨depth, false⟩

def inside (depth : Int) : Scan := ⟨depth, true⟩

/-- Inside a string only the quote that ends it counts; one that is doubled ends it and opens it
again. -/
def next (s : Scan) (c : Char) : Scan :=
  if c = '\x27' then { s with quoted := !s.quoted }
  else if s.quoted then s
  else if c = '(' then { s with depth := s.depth + 1 }
  else if c = ')' then { s with depth := s.depth - 1 }
  else s

/-- The pieces between those separators that stand outside all strings and parentheses. -/
def cutFrom (separator : Char) (s : Scan) : List Char → List (List Char)
  | [] => [[]]
  | c :: rest =>
      if c = separator ∧ s = outside 0 then [] :: cutFrom separator s rest
      else (cutFrom separator (s.next c) rest).modifyHead (c :: ·)

/-- What stands in the outermost parentheses, one text for each pair. -/
def groupsFrom (s : Scan) : List Char → List (List Char)
  | [] => []
  | c :: rest =>
      if s.depth = 0 then groupsFrom (s.next c) rest
      else if s.next c = outside 0 then [] :: groupsFrom (outside 0) rest
      else (groupsFrom (s.next c) rest).modifyHead (c :: ·)

end Scan

open Scan

/-- Parentheses and strings that are opened are closed, and no parenthesis is closed before it was
opened. -/
def Balanced (text : List Char) : Prop :=
  text.foldl next (outside 0) = outside 0 ∧
    ∀ read, read <+: text → 0 ≤ (read.foldl next (outside 0)).depth

def cut (separator : Char) (text : List Char) : List (List Char) :=
  cutFrom separator (outside 0) text

def groups (text : List Char) : List (List Char) := groupsFrom (outside 0) text

/-- Characters that a scan does not pass over. -/
def marks : List Char := ['\x27', '(', ')']

namespace Scan

@[simp] theorem depth_outside (depth : Int) : (outside depth).depth = depth := rfl

@[simp] theorem outside_inj {a b : Int} : outside a = outside b ↔ a = b := by
  simp [outside]

@[simp] theorem inside_ne_outside {a b : Int} : inside a ≠ outside b := by
  simp [inside, outside]

@[simp] theorem next_open (depth : Int) : (outside depth).next '(' = outside (depth + 1) := rfl

@[simp] theorem next_close (depth : Int) : (outside (depth + 1)).next ')' = outside depth := by
  simp [next, outside]

@[simp] theorem next_quote (depth : Int) : (outside depth).next '\x27' = inside depth := rfl

@[simp] theorem next_endquote (depth : Int) : (inside depth).next '\x27' = outside depth := rfl

theorem next_inside {c : Char} (h : c ≠ '\x27') (depth : Int) :
    (inside depth).next c = inside depth := by
  simp [next, inside, h]

theorem next_of_not_mem_marks {c : Char} (h : c ∉ marks) (s : Scan) : s.next c = s := by
  simp only [marks, List.mem_cons, List.not_mem_nil, or_false, not_or] at h
  obtain ⟨hquote, hopen, hclose⟩ := h
  simp [next, hquote, hopen, hclose]

end Scan

/-- The scan passes a character at a depth or deeper, and no separator at that very depth. -/
structure Passes (separators : List Char) (depth : Int) (s : Scan) (c : Char) : Prop where
  before : depth ≤ s.depth
  after : depth ≤ (s.next c).depth
  free : s = outside depth → c ∉ separators

/-- Text that a scan passes at whatever depth it stands, and that shows no separator there. -/
structure Sealed (separators : List Char) (text : List Char) : Prop where
  returns : ∀ depth, text.foldl next (outside depth) = outside depth
  passes : ∀ depth, Along next (Passes separators depth) (outside depth) text

section Sealing

variable {separators others text a b : List Char}

theorem Sealed.mono (h : Sealed separators text) (hle : others ⊆ separators) :
    Sealed others text where
  returns := h.returns
  passes depth := (h.passes depth).mono fun _ _ hc =>
    ⟨hc.before, hc.after, fun hs hmem => hc.free hs (hle hmem)⟩

theorem sealed_nil : Sealed separators [] := ⟨fun _ => rfl, fun _ => trivial⟩

theorem Sealed.append (ha : Sealed separators a) (hb : Sealed separators b) :
    Sealed separators (a ++ b) where
  returns depth := by rw [List.foldl_append, ha.returns, hb.returns]
  passes depth := by
    refine along_append.mpr ⟨ha.passes depth, ?_⟩
    rw [ha.returns]
    exact hb.passes depth

theorem sealed_singleton {c : Char} (hmark : c ∉ marks) (hfree : c ∉ separators) :
    Sealed separators [c] where
  returns depth := next_of_not_mem_marks hmark _
  passes depth := by
    have hnext := next_of_not_mem_marks hmark (outside depth)
    exact ⟨⟨Int.le_refl _, by rw [hnext]; exact Int.le_refl _, fun _ => hfree⟩, trivial⟩

theorem sealed_of_forall (h : ∀ c ∈ text, c ∉ marks ∧ c ∉ separators) :
    Sealed separators text := by
  induction text with
  | nil => exact sealed_nil
  | cons c rest ih =>
    obtain ⟨hc, hrest⟩ := List.forall_mem_cons.mp h
    exact (sealed_singleton hc.1 hc.2).append (ih hrest)

theorem sealed_join {separator : List Char} (hseparator : Sealed separators separator)
    {pieces : List (List Char)} (h : ∀ piece ∈ pieces, Sealed separators piece) :
    Sealed separators (join separator pieces) := by
  induction pieces with
  | nil => exact sealed_nil
  | cons piece rest ih =>
    obtain ⟨hpiece, hrest⟩ := List.forall_mem_cons.mp h
    cases rest with
    | nil => exact hpiece
    | cons second rest => exact (hpiece.append hseparator).append (ih hrest)

/-- What is passed at a greater depth is passed at a lesser one, with any separators. -/
theorem Passes.deeper {depth : Int} {s : Scan} {c : Char} (h : Passes others (depth + 1) s c) :
    Passes separators depth s c where
  before := Int.le_of_lt h.before
  after := Int.le_of_lt h.after
  free hs := by
    have hdepth := h.before
    rw [hs, depth_outside] at hdepth
    omega

/-- Parentheses raise the depth of all that stands in them, so they hide its separators. -/
theorem sealed_parenthesized (hopen : '(' ∉ separators) (h : Sealed [] text) :
    Sealed separators (parenthesized text) where
  returns depth := by
    rw [parenthesized, List.cons_append, List.foldl_cons, List.foldl_append, next_open, h.returns]
    exact next_close depth
  passes depth := by
    have hin : Passes separators depth (outside depth) '(' :=
      ⟨Int.le_refl _, by simp only [next_open, depth_outside]; omega, fun _ => hopen⟩
    have hout : Passes separators depth (outside (depth + 1)) ')' :=
      ⟨by simp only [depth_outside]; omega, by rw [next_close]; exact Int.le_refl _,
        fun hs => by rw [outside_inj] at hs; omega⟩
    refine ⟨hin, along_append.mpr ⟨?_, ?_⟩⟩
    · exact (h.passes (depth + 1)).mono fun _ _ => Passes.deeper
    · rw [next_open, h.returns]
      exact ⟨hout, trivial⟩

theorem passes_inside (depth : Int) (c : Char) : Passes separators depth (inside depth) c where
  before := Int.le_refl _
  after := by
    by_cases hc : c = '\x27'
    · rw [hc, next_endquote]
      exact Int.le_refl _
    · rw [next_inside hc]
      exact Int.le_refl _
  free hs := absurd hs inside_ne_outside

/-- In a string a quote is written twice, so the scan is in the string again after each of them. -/
theorem foldl_doubledQuotes (depth : Int) (s : List Char) :
    (doubledQuotes s).foldl next (inside depth) = inside depth := by
  induction s with
  | nil => rfl
  | cons c s ih =>
    by_cases hc : c = '\x27'
    · rw [hc, doubledQuotes_quote, List.foldl_cons, List.foldl_cons, next_endquote, next_quote, ih]
    · rw [doubledQuotes_cons hc, List.foldl_cons, next_inside hc, ih]

theorem along_doubledQuotes (hquote : '\x27' ∉ separators) (depth : Int) (s : List Char) :
    Along next (Passes separators depth) (inside depth) (doubledQuotes s) := by
  induction s with
  | nil => trivial
  | cons c s ih =>
    by_cases hc : c = '\x27'
    · have hbetween : Passes separators depth (outside depth) '\x27' :=
        ⟨Int.le_refl _, Int.le_refl _, fun _ => hquote⟩
      rw [hc, doubledQuotes_quote]
      exact ⟨passes_inside _ _, hbetween, ih⟩
    · rw [doubledQuotes_cons hc]
      refine ⟨passes_inside depth c, ?_⟩
      rw [next_inside hc]
      exact ih

theorem sealed_quotedString (hquote : '\x27' ∉ separators) (s : List Char) :
    Sealed separators (quotedString s) where
  returns depth := by
    change (doubledQuotes s ++ ['\x27']).foldl next (inside depth) = _
    rw [List.foldl_append, foldl_doubledQuotes]
    rfl
  passes depth := by
    have hopening : Passes separators depth (outside depth) '\x27' :=
      ⟨Int.le_refl _, Int.le_refl _, fun _ => hquote⟩
    refine ⟨hopening, along_append.mpr ⟨along_doubledQuotes hquote depth s, ?_⟩⟩
    change Along next _ ((doubledQuotes s).foldl next (inside depth)) ['\x27']
    rw [foldl_doubledQuotes]
    exact ⟨passes_inside _ _, trivial⟩

end Sealing

section Cuts

variable {separators others text : List Char}

theorem Sealed.balanced (h : Sealed separators text) : Balanced text := by
  refine ⟨h.returns 0, fun read hread => ?_⟩
  obtain ⟨rest, rfl⟩ := hread
  have hpasses := (along_append.mp (h.passes 0)).1
  have hsteps : Along next (fun s c => 0 ≤ (s.next c).depth) (outside 0) read :=
    hpasses.mono fun _ _ hc => hc.after
  exact @Along.foldl _ _ _ _ (fun s : Scan => 0 ≤ s.depth) hsteps (Int.le_refl 0)

/-- A function that puts characters before the first of its pieces puts a whole text there, if it
does so all along the text. -/
theorem gather_along {f : Scan → List Char → List (List Char)} {Kept : Scan → Char → Prop}
    (hf : ∀ s c rest, Kept s c → f s (c :: rest) = (f (s.next c) rest).modifyHead (c :: ·))
    {s : Scan} (h : Along next Kept s text) (rest : List Char) :
    f s (text ++ rest) = (f (text.foldl next s) rest).modifyHead (text ++ ·) := by
  induction text generalizing s with
  | nil => exact (congrFun List.modifyHead_id _).symm
  | cons c text ih =>
    rw [List.cons_append, hf s c _ h.1, ih h.2, List.modifyHead_modifyHead]
    rfl

theorem cutFrom_append {separator : Char} (hmem : separator ∈ separators)
    (h : Sealed separators text) (rest : List Char) :
    cutFrom separator (outside 0) (text ++ rest) =
      (cutFrom separator (outside 0) rest).modifyHead (text ++ ·) := by
  have hkept : Along next (fun s c => ¬(c = separator ∧ s = outside 0)) (outside 0) text :=
    (h.passes 0).mono fun s c hc heq => hc.free heq.2 (heq.1 ▸ hmem)
  have hgather := @gather_along _ (cutFrom separator) _ (fun s c rest hc => if_neg hc) _ hkept rest
  rwa [h.returns] at hgather

/-- Sealed pieces are what a cut finds between the separators. -/
theorem cut_join {separator : Char} (hmem : separator ∈ separators)
    {piece : List Char} {pieces : List (List Char)}
    (h : ∀ p ∈ piece :: pieces, Sealed separators p) :
    cut separator (join [separator] (piece :: pieces)) = piece :: pieces := by
  induction pieces generalizing piece with
  | nil =>
    have hcut := cutFrom_append hmem (List.forall_mem_singleton.mp h) []
    rw [List.append_nil] at hcut
    rw [join, cut, hcut]
    simp [cutFrom]
  | cons second rest ih =>
    obtain ⟨hpiece, hrest⟩ := List.forall_mem_cons.mp h
    rw [join, List.append_assoc, cut, cutFrom_append hmem hpiece, List.singleton_append, cutFrom,
      if_pos ⟨rfl, rfl⟩, List.modifyHead_cons, List.append_nil]
    exact congrArg (piece :: ·) (ih hrest)

example : cut ',' "f(a,'(,'),b".toList = ["f(a,'(,')".toList, "b".toList] := by decide

/-- A text in parentheses is the whole of the group that they make. -/
theorem groupsFrom_parenthesized (h : Sealed separators text) :
    groupsFrom (outside 0) (parenthesized text) = [text] := by
  have hkept : Along next (fun s c => s.depth ≠ 0 ∧ s.next c ≠ outside 0) (outside 1) text := by
    refine (h.passes 1).mono fun s c hc => ⟨?_, fun heq => ?_⟩
    · have hbefore := hc.before
      omega
    · have hafter := hc.after
      rw [heq, depth_outside] at hafter
      omega
  have hgather := @gather_along _ groupsFrom _
    (fun s c rest hc => by rw [groupsFrom, if_neg hc.1, if_neg hc.2]) _ hkept [')']
  rw [h.returns] at hgather
  change groupsFrom (outside 1) (text ++ [')']) = [text]
  rw [hgather]
  simp [groupsFrom, outside, next]

/-- The depth changes outside of strings only. -/
theorem Scan.depth_next_ne_zero {s : Scan} {c : Char} (h : s.depth ≠ 0)
    (hnext : s.next c ≠ outside 0) : (s.next c).depth ≠ 0 := by
  have hcases : (s.next c).depth = s.depth ∨ s.next c = outside (s.next c).depth := by
    obtain ⟨depth, quoted⟩ := s
    unfold Scan.next
    split
    · exact Or.inl rfl
    · cases quoted with
      | true => exact Or.inl rfl
      | false =>
        refine Or.inr ?_
        rw [if_neg Bool.false_ne_true]
        split
        · rfl
        · split <;> rfl
  rcases hcases with hsame | houtside
  · rwa [hsame]
  · intro hzero
    rw [hzero] at houtside
    exact hnext houtside

/-- The groups of a text come before those of what follows it. -/
theorem groupsFrom_append {s : Scan} (h : text.foldl next s = outside 0) (rest : List Char) :
    (s.depth ≠ 0 → groupsFrom s text ≠ []) ∧
      groupsFrom s (text ++ rest) = groupsFrom s text ++ groupsFrom (outside 0) rest := by
  induction text generalizing s with
  | nil =>
    obtain rfl : s = outside 0 := h
    exact ⟨fun hdepth => absurd rfl hdepth, rfl⟩
  | cons c text ih =>
    obtain ⟨hne, happend⟩ := ih h
    rw [List.cons_append, groupsFrom, groupsFrom]
    by_cases hdepth : s.depth = 0
    · rw [if_pos hdepth, if_pos hdepth]
      exact ⟨fun hne => absurd hdepth hne, happend⟩
    · rw [if_neg hdepth, if_neg hdepth]
      by_cases hclosed : s.next c = outside 0
      · rw [if_pos hclosed, if_pos hclosed]
        rw [hclosed] at happend
        exact ⟨fun _ => List.cons_ne_nil _ _, congrArg ([] :: ·) happend⟩
      · rw [if_neg hclosed, if_neg hclosed, happend]
        obtain ⟨body, bodies, hbodies⟩ :=
          List.exists_cons_of_ne_nil (hne (depth_next_ne_zero hdepth hclosed))
        rw [hbodies]
        exact ⟨fun _ => List.cons_ne_nil _ _, rfl⟩

/-- The last group of a text that ends with a parenthesis is what stands before it. -/
theorem getLast?_groups {lead : List Char} (hlead : Sealed others lead)
    (h : Sealed separators text) : (groups (lead ++ parenthesized text)).getLast? = some text := by
  rw [groups, (groupsFrom_append (hlead.returns 0) _).2, groupsFrom_parenthesized h,
    List.getLast?_concat]

example : groups "A(1)/B(top(2);')')".toList = ["1".toList, "top(2);')'".toList] := by decide

end Cuts

end ExpandTree
