import JsonEvents.Proofs.Location

/-!
# Locations in what a reader delivers

A reader that delivers an input in pieces leads to the locations of the input
itself, as long as no line is too long for the window.
-/

namespace JsonEvents

open Ascii

namespace Window

/-- The window for locations comes to its largest size by doubling the smallest one. -/
theorem climbs_largestBuffer :
    Stream.Climbs Options.largestBuffer Options.largestBuffer ({} : Options).minBufferSize := by
  have last : Stream.Climbs 1048576 1048576 1048576 := .there (by decide) (by decide)
  exact .twice (.twice (.twice (.twice (.twice (.twice (.twice (.twice (.twice (.twice last)))))))))

/-- A window stands at the beginning of what its reader is going to deliver. -/
theorem stands_ofReader {reader : Reader} (steady : reader.IsSteady)
    (ended : reader.ending.isEndOfInput = true) :
    Stands reader.pending reader.ending Options.largestBuffer
      (ofReader reader { maxBufferSize := Options.largestBuffer }) where
  shows := shows_ofReader _ steady (Status.isOk_of_isEndOfInput ended)
    (Status.isBufferExceeded_of_isEndOfInput ended)
  fits := by nofun
  tops := climbs_largestBuffer
  offset := rfl
  clean := nofun

end Window

namespace Location

section Search

variable {δ : Type} [NatCast δ] [Sub δ] [DecidableEq δ]

theorem ofReader_eq_found {reader : Reader} (steady : reader.IsSteady)
    (ended : reader.ending.isEndOfInput = true)
    (fit : Lines.Fit reader.pending Options.largestBuffer) (offset : δ) :
    ofReader reader offset =
      found reader.pending reader.ending (Lines.seek (· - ·) reader.pending 0 0 offset) :=
  (Window.stands_ofReader steady ended).locateFrom fit rfl

/-- Where the text ends is told alike by all statuses that tell the end of the input. -/
theorem found_of_endOfInput (input : Bytes) {ending : Status} (ended : ending.isEndOfInput = true)
    (place : Nat) :
    (found input ending place).1.category = (found input .endOfInput place).1.category ∧
      (found input ending place).1.reason = (found input .endOfInput place).1.reason ∧
      (found input ending place).2 = (found input .endOfInput place).2 := by
  simp only [Status.isEndOfInput, Bool.and_eq_true, beq_iff_eq] at ended
  unfold found
  split
  · exact ⟨rfl, rfl, rfl⟩
  · split
    · exact ⟨rfl, rfl, rfl⟩
    · exact ⟨ended.1, ended.2, rfl⟩

/--
A reader that delivers an input in pieces, each read bringing something until
the end comes, leads to the line, column and excerpt that the input itself
leads to for every offset, and to a status of the same category and reason, if
every line is shorter than the largest window.  That is so whatever offsets are
counted in and whatever the differences are that the two searches take, since
they take the same ones.
-/
theorem ofReader_like_ofBytes {input : Bytes} {reader : Reader} (steady : reader.IsSteady)
    (delivers : reader.pending = input) (ended : reader.ending.isEndOfInput = true)
    (short : ∀ line ∈ Lines.split input, line.length < Options.largestBuffer) (offset : δ) :
    (ofReader reader offset).1.category = (ofBytes input offset).1.category ∧
      (ofReader reader offset).1.reason = (ofBytes input offset).1.reason ∧
      (ofReader reader offset).2 = (ofBytes input offset).2 := by
  subst delivers
  rw [ofReader_eq_found steady ended (Lines.fit_of_split short), ofBytes_eq_found]
  exact found_of_endOfInput reader.pending ended _

end Search

/-- A pair that is cut by reads of one byte, with the end of the input given with the last one. -/
theorem ofReader_like_ofBytes_across_pair :
    let reader : Reader :=
      { pieces := [Bytes.ofString "a\r", Bytes.ofString "\nbc"]
        most := some 1
        ending := .withText .ioError .endOfInput (Bytes.ofString "done")
        endsWithLast := true }
    let input := Bytes.ofString "a\r\nbc"
    reader.IsSteady ∧ reader.ending.isEndOfInput = true ∧
      (∀ line ∈ Lines.split input, line.length < Options.largestBuffer) ∧
      (ofReader reader (4 : Int64)).2 = (ofBytes input (4 : Int64)).2 ∧
      ((ofBytes input (4 : Int64)).2.line, (ofBytes input (4 : Int64)).2.column) = (2, 2) ∧
      (ofReader reader (5 : Int64)).1.reason = (ofBytes input (5 : Int64)).1.reason ∧
      (ofReader reader Int64.minValue).2 = (ofBytes input Int64.minValue).2 := by
  intro reader input
  have steady : reader.IsSteady := ⟨by decide, by decide⟩
  have short : ∀ line ∈ Lines.split input, line.length < Options.largestBuffer := by decide
  have delivers : reader.pending = input := by decide
  have inside := ofReader_like_ofBytes steady delivers rfl short (4 : Int64)
  have behind := ofReader_like_ofBytes steady delivers rfl short (5 : Int64)
  have front := ofReader_like_ofBytes steady delivers rfl short Int64.minValue
  exact ⟨steady, rfl, short, inside.2.2, by decide +kernel, behind.2.1, front.2.2⟩

end Location

end JsonEvents
