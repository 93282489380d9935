import WordRole.Proofs.Lexing.Scanners

/-!
# How far a heredoc looks

A marker is told by its line (`Heredoc.marker?_append`, `Heredoc.marker?_eq_none_of_sameStart`), and
the lines of heredocs that are all closed do not depend on what follows them
(`Heredoc.bodies_append`).
-/

namespace WordRole

open Text (Cut)

namespace Heredoc

section Quoted

variable {c : Char} (hc : (decide (c = '"') || decide (c = '\'')) = true)

include hc

theorem ne_newline_of_quote : c ≠ '\n' := by
  rintro rfl
  revert hc
  decide

/-- A tag in quotes runs to the same quote on its line. -/
theorem tag?_of_quote {tag : List Char} (htag : ∀ d ∈ tag, d ≠ c ∧ d ≠ '\n') (rest : List Char) :
    tag? (c :: (tag ++ c :: rest)) = some (tag, ⟨c :: tag ++ [c], rest⟩) := by
  have hspan : Cut.span (fun d => d != c && d != '\n') (tag ++ c :: rest) = ⟨tag, c :: rest⟩ :=
    Cut.span_eq_iff.mpr ⟨fun d hd => by simpa using htag d hd, by simp⟩
  rw [tag?, if_pos hc, hspan]
  simp

/-- There is a tag if that quote is on the line. -/
theorem tag?_of_quote_eq_none_iff {cs : List Char} :
    tag? (c :: cs) = none ↔ c ∉ Text.content cs := by
  constructor
  · intro h hm
    obtain ⟨g, more, hline, hg⟩ := List.eq_append_cons_of_mem hm
    have hwhole : Text.content cs ++ cs.dropWhile (· != '\n') = cs :=
      List.takeWhile_append_dropWhile
    have hon : ∀ d ∈ g, d ≠ '\n' := fun d hd => by
      have hd : d ∈ Text.content cs := hline ▸ List.mem_append_left _ hd
      simpa using List.all_eq_true.mp List.all_takeWhile d hd
    rw [← hwhole, hline, List.append_assoc, List.cons_append, tag?_of_quote hc fun d hd =>
      ⟨ne_of_mem_of_not_mem hd hg, hon d hd⟩] at h
    cases h
  · intro h
    obtain ⟨g, r, hspan⟩ : ∃ g r, Cut.span (fun d => d != c && d != '\n') cs = ⟨g, r⟩ :=
      ⟨_, _, rfl⟩
    have hwhole := Cut.whole_span (fun d => d != c && d != '\n') cs
    rw [hspan] at hwhole
    obtain rfl : g ++ r = cs := hwhole
    obtain ⟨hg, hr⟩ := Cut.span_eq_iff.mp hspan
    have hline : Text.content (g ++ r) = g ++ Text.content r :=
      List.takeWhile_append_of_pos fun d hd => by
        have := hg d hd
        simp_all
    rw [tag?, if_pos hc, hspan]
    cases r with
    | nil => rfl
    | cons d rest =>
      have hd : d ≠ c := by
        rintro rfl
        rw [hline] at h
        simp [Text.content, ne_newline_of_quote hc] at h
      exact if_neg hd

theorem exists_of_tag?_of_quote {cs tag : List Char} {cut : Cut}
    (h : tag? (c :: cs) = some (tag, cut)) :
    ∃ rest, cs = tag ++ c :: rest ∧ ∀ d ∈ tag, d ≠ c ∧ d ≠ '\n' := by
  obtain ⟨g, r, hspan⟩ : ∃ g r, Cut.span (fun d => d != c && d != '\n') cs = ⟨g, r⟩ := ⟨_, _, rfl⟩
  have hwhole := Cut.whole_span (fun d => d != c && d != '\n') cs
  rw [hspan] at hwhole
  obtain rfl : g ++ r = cs := hwhole
  rw [tag?, if_pos hc, hspan] at h
  cases r with
  | nil => cases h
  | cons d rest =>
    dsimp only at h
    split at h
    · rename_i hd
      obtain ⟨rfl, -⟩ := Prod.mk.inj (Option.some.inj h)
      exact ⟨rest, by rw [hd], fun e he => by simpa using (Cut.span_eq_iff.mp hspan).1 e he⟩
    · cases h

end Quoted

/-- Whether no tag starts is told by the first character and the line. -/
theorem tag?_eq_none_of_content {s s' : List Char} (hhead : s'.head? = s.head?)
    (hline : Text.content s' = Text.content s) (h : tag? s = none) : tag? s' = none := by
  cases s with
  | nil =>
    rw [List.head?_nil, List.head?_eq_none_iff] at hhead
    rw [hhead]
    rfl
  | cons c cs =>
    obtain ⟨cs', rfl⟩ := List.head?_eq_some_iff.mp hhead
    by_cases hquote : (decide (c = '"') || decide (c = '\'')) = true
    · have hcs : Text.content cs' = Text.content cs := by
        simpa [Text.content, ne_newline_of_quote hquote] using hline
      rw [tag?_of_quote_eq_none_iff hquote] at h ⊢
      rwa [hcs]
    · rw [tag?, if_neg hquote] at h ⊢
      split at h
      · cases h
      · rename_i hname
        rw [if_neg hname]

theorem tag?_append {t x y tag : List Char} (h : Text.SameStart x y)
    (ht : tag? (t ++ x) = some (tag, ⟨t, x⟩)) : tag? (t ++ y) = some (tag, ⟨t, y⟩) := by
  obtain ⟨c, d, s, s', hs, hs', -⟩ := (h.append t).first
  have hhead : (t ++ x).head? = some c := by rw [hs]; rfl
  by_cases hquote : (decide (c = '"') || decide (c = '\'')) = true
  · rw [hs] at ht
    obtain ⟨rest, hrest, htag⟩ := exists_of_tag?_of_quote hquote ht
    rw [hrest, tag?_of_quote hquote htag] at ht
    obtain ⟨-, hcut⟩ := Prod.mk.inj (Option.some.inj ht)
    obtain ⟨rfl, rfl⟩ := Cut.mk.inj hcut
    have hsource : c :: tag ++ [c] ++ y = c :: (tag ++ c :: y) := by simp
    rw [hsource, tag?_of_quote hquote htag]
  · rw [hs, tag?, if_neg hquote, ← hs] at ht
    rw [hs', tag?, if_neg hquote, ← hs']
    split at ht
    · rename_i hname
      rw [if_pos hname]
      obtain ⟨rfl, hspan⟩ := Prod.mk.inj (Option.some.inj ht)
      rw [(Cut.settled_span isNameChar).stops h hspan, hspan]
    · cases ht

/-- A marker is two angle brackets and a tag, with or without a mark between them. -/
theorem marker?_of_tag (p : Position) (s : List Char) :
    marker? p ('<' :: '<' :: s) =
      if s.head? = some '~' then
        (tag? s.tail).map fun t => (⟨t.1, true, p⟩, t.2.after ['<', '<', '~'])
      else (tag? s).map fun t => (⟨t.1, false, p⟩, t.2.after ['<', '<']) := by
  cases s with
  | nil => rfl
  | cons c s =>
    by_cases hc : c = '~'
    · subst hc
      rfl
    · rw [if_neg (by simpa using hc), marker?]
      intro cs heq
      exact hc (List.cons.inj heq).1

theorem marker?_eq_none_of_head? {c : Char} {s : List Char}
    (h : ¬(c = '<' ∧ s.head? = some '<')) (p : Position) : marker? p (c :: s) = none := by
  unfold marker?
  split
  · rename_i heq
    obtain ⟨rfl, rfl⟩ := List.cons.inj heq
    exact absurd ⟨rfl, rfl⟩ h
  · rename_i heq
    obtain ⟨rfl, rfl⟩ := List.cons.inj heq
    exact absurd ⟨rfl, rfl⟩ h
  · rfl

theorem marker?_append {p : Position} {t x y : List Char} {heredoc : Heredoc}
    (h : Text.SameStart x y) (ht : marker? p (t ++ x) = some (heredoc, ⟨t, x⟩)) :
    marker? p (t ++ y) = some (heredoc, ⟨t, y⟩) := by
  obtain ⟨s, hs⟩ : ∃ s, t ++ x = '<' :: '<' :: s := by
    obtain ⟨c, d, s, s', hs, hs', -⟩ := (h.append t).first
    rw [hs] at ht ⊢
    by_cases hangles : c = '<' ∧ (d :: s).head? = some '<'
    · obtain ⟨rfl, hd⟩ := hangles
      obtain rfl : d = '<' := Option.some.inj hd
      exact ⟨s, rfl⟩
    · rw [marker?_eq_none_of_head? hangles] at ht
      cases ht
  rw [hs, marker?_of_tag] at ht
  split at ht
  · rename_i hmark
    obtain ⟨⟨tag, cut⟩, htag, he⟩ := Option.map_eq_some_iff.mp ht
    obtain ⟨rfl, hcut⟩ := Prod.mk.inj he
    obtain ⟨t', rfl, rfl⟩ := Cut.after_eq_iff.mp hcut
    obtain ⟨s', rfl⟩ := List.head?_eq_some_iff.mp hmark
    obtain rfl : t' ++ x = s' := by simpa using hs
    show marker? p ('<' :: '<' :: '~' :: (t' ++ y)) = _
    rw [marker?, tag?_append h htag]
    rfl
  · rename_i hmark
    obtain ⟨⟨tag, cut⟩, htag, he⟩ := Option.map_eq_some_iff.mp ht
    obtain ⟨rfl, hcut⟩ := Prod.mk.inj he
    obtain ⟨t', rfl, rfl⟩ := Cut.after_eq_iff.mp hcut
    obtain rfl : t' ++ x = s := by simpa using hs
    show marker? p ('<' :: '<' :: (t' ++ y)) = _
    rw [marker?_of_tag, if_neg (by rwa [(h.append t').head?]), tag?_append h htag]
    rfl

/-- Whether two angle brackets are a marker is told by the line. -/
theorem marker?_eq_none_of_sameStart {p : Position} {s s' : List Char} (h : Text.SameStart s s')
    (hs : marker? p ('<' :: '<' :: s) = none) : marker? p ('<' :: '<' :: s') = none := by
  rw [marker?_of_tag] at hs ⊢
  rw [h.head?]
  split at hs
  · rename_i hmark
    rw [if_pos hmark]
    rw [Option.map_eq_none_iff] at hs ⊢
    have hline := h.line
    obtain ⟨c, d, xs, ys, rfl, rfl, -⟩ := h.first
    obtain rfl : c = '~' := Option.some.inj hmark
    refine tag?_eq_none_of_content ?_ ?_ hs
    · rfl
    · simpa [Text.content] using hline.symm
  · rename_i hmark
    rw [if_neg hmark]
    rw [Option.map_eq_none_iff] at hs ⊢
    exact tag?_eq_none_of_content h.head? h.line.symm hs

/-! ### The lines of heredocs -/

/-- Lines up to the terminator are read again before any others. -/
theorem read_append {h : Heredoc} {ls : List (List Char)} (hrest : (h.read ls).2 ≠ [])
    (more : List (List Char)) :
    h.read ((h.read ls).1.source ++ more) = ((h.read ls).1, more) := by
  obtain ⟨hlines, hclosing, hnone⟩ := h.closes_read ls
  have hheredoc := h.heredoc_read ls
  generalize (h.read ls).1 = b at *
  obtain ⟨k, lines, closing⟩ := b
  obtain rfl : k = h := hheredoc
  cases closing with
  | none => exact absurd (hnone rfl) hrest
  | some l =>
    have hl : ∀ m ∈ lines, (!k.isClosedBy m) = true := fun m hm => by simp [hlines m hm]
    have hstop : (!k.isClosedBy l) = false := by simp [hclosing l rfl]
    have hsource : (⟨k, lines, some l⟩ : Body).source ++ more = lines ++ l :: more := by
      simp [Body.source]
    rw [hsource, read, List.takeWhile_append_of_pos hl, List.dropWhile_append_of_pos hl,
      List.takeWhile_cons, List.dropWhile_cons, hstop]
    simp

theorem readAll_cons (h : Heredoc) (hs : List Heredoc) (ls : List (List Char)) :
    readAll (h :: hs) ls =
      ((h.read ls).1 :: (readAll hs (h.read ls).2).1, (readAll hs (h.read ls).2).2) := rfl

theorem readAll_append {hs : List Heredoc} {ls : List (List Char)}
    (hrest : (readAll hs ls).2 ≠ []) (more : List (List Char)) :
    readAll hs ((readAll hs ls).1.flatMap Body.source ++ more) = ((readAll hs ls).1, more) := by
  induction hs generalizing ls with
  | nil => rfl
  | cons h hs ih =>
    rw [readAll_cons h hs ls] at hrest ⊢
    have hread : (h.read ls).2 ≠ [] := by
      intro hnil
      rw [hnil] at hrest
      exact hrest (readAll_nil hs)
    rw [List.flatMap_cons, List.append_assoc, readAll_cons, read_append hread, ih hrest]

theorem bodies_append {hs : List Heredoc} {t x : List Char} (hx : x ≠ [])
    (h : (bodies hs (t ++ x)).2 = ⟨t, x⟩) (y : List Char) :
    bodies hs (t ++ y) = ((bodies hs (t ++ x)).1, ⟨t, y⟩) := by
  obtain ⟨ht, hrest⟩ := Cut.mk.inj h
  have hmore : (readAll hs (Text.lines (t ++ x))).2 ≠ [] := by
    intro hnil
    rw [hnil] at hrest
    exact hx hrest.symm
  have hlines := (source_readAll hs (Text.lines (t ++ x))).symm
  have hy := Text.lines_flatten_append hlines hmore y
  have hread := readAll_append hmore (Text.lines y)
  rw [← hy, ht] at hread
  unfold bodies
  dsimp only
  rw [hread, ht, Text.flatten_lines]

end Heredoc

end WordRole
