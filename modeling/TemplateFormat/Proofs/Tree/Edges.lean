import TemplateFormat.Proofs.Tree.Container

/-!
# Both ends of a node

Every node starts with a brace or an angle bracket, and ends with one unless it is a branch that
the next branch closes. These are no letters of stems, so a node that is printed next to other
text never makes the stem together with it. White space is left out here: printing may change it.

Results:
* `Node.Joined.opens`: what a branch starts with.
* `Node.framed`: what a node that is closed starts and ends with.
-/

namespace TemplateFormat

open Placeholder

/-- White space apart, the text starts with a character that is no letter of stems. -/
def Opens (t : Text) : Prop := Text.solid t ≠ [] ∧ StartsClear (Text.solid t)

theorem Opens.append {s : Text} (h : Opens s) (t : Text) : Opens (s ++ t) := by
  rw [Opens, Text.solid_append]
  exact ⟨List.append_ne_nil_of_left_ne_nil h.1 _, startsClear_append_of_ne_nil h.1 h.2 _⟩

/-- White space apart, the text has characters, and at both ends one that is no letter of stems. -/
theorem framed_append {s t : Text} (hs : Opens s) (ht : Framed (Text.solid t)) :
    Framed (Text.solid (s ++ t)) := by
  obtain ⟨hne, hstarts⟩ := hs.append t
  refine ⟨hne, hstarts, ?_⟩
  rw [Text.solid_append]
  intro c hc
  rw [List.getLast?_append_of_ne_nil _ ht.ne_nil] at hc
  exact ht.ends c hc

theorem framed_isAction {text : Text} {act : Action} (h : IsAction text act) :
    Framed (Text.solid text) := by
  obtain ⟨inner, rfl, -⟩ := h
  rw [Text.solid_append, Text.solid_append]
  refine ⟨by simp [openBraces, Text.solid, isBlank], fun c hc => ?_, fun c hc => ?_⟩
  · obtain rfl : '{' = c := by simpa [openBraces, Text.solid, isBlank] using hc
    decide
  · obtain rfl : '}' = c := by simpa [closeBraces, Text.solid, isBlank] using hc
    decide

theorem framed_isRaw {text : Text} (h : IsRaw text) : Framed (Text.solid text) := by
  obtain ⟨name, -, ⟨rest, hrest⟩, -, ⟨body, hbody⟩⟩ := h
  refine ⟨?_, fun c hc => ?_, fun c hc => ?_⟩
  · rw [← hrest]
    simp [Text.solid, isBlank]
  · rw [← hrest] at hc
    obtain rfl : '<' = c := by simpa [Text.solid, isBlank] using hc
    decide
  · rw [← hbody] at hc
    obtain rfl : '>' = c := by simpa [Text.solid, isBlank] using hc
    decide

namespace Node

theorem opens_block {offset : Nat} {info : Info} {frame : Frame} {children : List Node}
    (h : (block info frame children).Placed offset) : Opens (block info frame children).text := by
  have hstart := framed_isAction h.2.1.2
  rw [text, List.append_assoc, List.append_assoc]
  exact Opens.append ⟨hstart.ne_nil, hstart.starts⟩ _

theorem framed_block {offset : Nat} {info : Info} {frame : Frame} {children : List Node}
    (h : (block info frame children).Placed offset) (hc : (block info frame children).Closed) :
    Framed (Text.solid (block info frame children).text) := by
  obtain ⟨-, hstart, -, -, hstop⟩ := h
  obtain ⟨l, hl⟩ := Option.isSome_iff_exists.mp hc
  have hframed := framed_isAction hstart.2
  rw [text, hl]
  refine framed_append ?_ (framed_isAction (hstop l hl).2)
  rw [List.append_assoc]
  exact Opens.append ⟨hframed.ne_nil, hframed.starts⟩ _

theorem exists_placed_of_mem : ∀ {offset : Nat} {ns : List Node}, PlacedAll offset ns →
    ∀ n ∈ ns, ∃ o, n.Placed o
  | _, _ :: _, h, n, hn => by
    rcases List.mem_cons.mp hn with rfl | hn
    · exact ⟨_, h.1⟩
    · exact exists_placed_of_mem h.2 n hn

/-- A branch is a block without a literal before it. -/
theorem Joined.eq_block {n : Node} (h : n.Joined) :
    ∃ info frame children, n = block info frame children ∧ info.lead = [] := by
  cases n with
  | action info t act => exact absurd h (by simp [Joined])
  | raw info t => exact absurd h (by simp [Joined])
  | block info frame children => exact ⟨info, frame, children, rfl, h⟩
  | chain info branches => exact absurd h (by simp [Joined])

theorem Joined.lead_eq {n : Node} (h : n.Joined) : n.info.lead = [] := by
  obtain ⟨info, frame, children, rfl, hlead⟩ := h.eq_block
  exact hlead

theorem Joined.opens {n : Node} {offset : Nat} (h : n.Joined) (hp : n.Placed offset) :
    Opens n.text := by
  obtain ⟨info, frame, children, rfl, -⟩ := h.eq_block
  exact opens_block hp

/-- The branches of a chain start with the first and end with the last of them. -/
theorem framed_branches {offset : Nat} {branches : List Node} (hp : PlacedAll offset branches)
    (hb : Branches branches) : Framed (Text.solid (spellAll branches)) := by
  obtain ⟨init, last, rfl, hclosed⟩ := hb.closed
  have hjoined := hb.joined last (List.mem_append_right init (List.mem_singleton_self last))
  have hlast : Framed (Text.solid last.text) := by
    obtain ⟨o, ho⟩ := exists_placed_of_mem hp last
      (List.mem_append_right init (List.mem_singleton_self last))
    obtain ⟨info, frame, children, rfl, -⟩ := hjoined.eq_block
    exact framed_block ho hclosed
  rw [spellAll_append, spellAll_singleton, hjoined.lead_eq, List.nil_append]
  cases init with
  | nil => exact hlast
  | cons first init =>
    have hfirst := hb.joined first List.mem_cons_self
    refine framed_append ?_ hlast
    rw [spellAll, hfirst.lead_eq, List.nil_append]
    exact (hfirst.opens hp.1).append _

/-- **What a closed node starts and ends with.** -/
theorem framed {offset : Nat} {n : Node} (h : n.Placed offset) (hc : n.Closed) :
    Framed (Text.solid n.text) := by
  cases n with
  | action info t act =>
    rw [text]
    exact framed_isAction h.2
  | raw info t =>
    rw [text]
    exact framed_isRaw h.2
  | block info frame children => exact framed_block h hc
  | chain info branches =>
    rw [text]
    exact framed_branches h.2.1 h.2.2

end Node

end TemplateFormat
