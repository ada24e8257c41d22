import MailTrace.Proofs.Source.Following
import MailTrace.Proofs.Source.Streams

/-!
# All readers find the same lines

A file is read to its end as it is, unpacked, or followed as it grows. Each way the octets come in other
pieces, and a line without an end is left out only while more can come.
-/

namespace MailTrace

open MailTrace.Text Lines

variable {path : String} {f : Following}

/-- A log that was never cut short nor replaced, and is read until nothing is left. -/
theorem Following.yielded_of_one_generation {d : Disk} {first octets : List UInt8}
    (h : Relation.ReflTransGen Following.Step (Following.start d path first) f)
    (hearlier : f.earlier = []) (hcontent : f.content = octets) :
    (∃ n, (f.polls n).Idle) ∧ ∀ n, (f.polls n).Idle → (f.polls n).yielded = finished path octets := by
  have hnoticed : f.Noticed := by
    cases (Following.sound_of_reaches h).1.standing with
    | inside hfile hreads => exact Following.noticed_of_reads hfile hreads
    | outside _ houtside => exact absurd (houtside.symm.trans hearlier) (by simp)
    | beyond _ _ hbeyond => exact absurd hearlier hbeyond
  obtain ⟨-, hyields⟩ := Following.yielded_of_reaches h
  rw [hearlier, hcontent, List.nil_append, List.flatMap_singleton] at hyields
  exact hyields (.inr hnoticed)

/-- **All readers find the same lines, and those that were written.** -/
theorem readers_agree (path : String) :
    (∀ (ls : List (String × LineEnd)) (last : Option String) (chunks : List Chunk),
      (∀ l ∈ ls, FitsLine l.1) → (∀ t ∈ last, FitsLine t ∧ t ≠ "") →
      Chunk.octets chunks = writeText ls last →
      (LineStream.start none chunks false).lines =
          ⟨(ls.map (·.1) ++ last.toList).map (⟨·, none⟩), false⟩ ∧
        (LineStream.start (some path) chunks false).lines =
          ⟨(ls.map (·.1) ++ last.toList).mapIdx fun i t => ⟨t, some ⟨path, i + 1⟩⟩, false⟩ ∧
        unpackedInPieces path chunks true =
          (ls.map (·.1) ++ last.toList).mapIdx fun i t => ⟨t, some ⟨path, i + 1⟩⟩) ∧
    ∀ (octets : List UInt8) (chunks unpacked : List Chunk), EndsWithLine octets →
      Chunk.octets chunks = octets → Chunk.octets unpacked = octets →
      (LineStream.start (some path) chunks false).lines = ⟨Lines.read (some path) octets, false⟩ ∧
        unpackedInPieces path unpacked true = Lines.read (some path) octets ∧
        ∀ (d : Disk) (first : List UInt8) (f : Following),
          Relation.ReflTransGen Following.Step (Following.start d path first) f →
          f.earlier = [] → f.content = octets →
          (∃ n, (f.polls n).Idle) ∧
            ∀ n, (f.polls n).Idle → (f.polls n).yielded = Lines.read (some path) octets := by
  constructor
  · intro ls last chunks hls hlast hchunks
    have hlines := read_writeText path hls hlast
    refine ⟨?_, ?_, ?_⟩
    · rw [LineStream.lines_start, hchunks, read_eq, all_writeText hls hlast]
      rfl
    · rw [LineStream.lines_start, hchunks, hlines]
    · rw [unpackedInPieces_eq, hchunks]
      exact hlines
  · intro octets chunks unpacked hend hchunks hunpacked
    refine ⟨?_, ?_, fun d first f hreaches hearlier hcontent => ?_⟩
    · rw [LineStream.lines_start, hchunks]
    · rw [unpackedInPieces_eq, hunpacked]
      rfl
    · rw [hend.read_eq_finished]
      exact Following.yielded_of_one_generation hreaches hearlier hcontent

/-- Two texts, of which the second has no end, and octets that are no text and come while they are
followed. -/
theorem readers_agree_on_pieces :
    (LineStream.start (some "mail.log") [⟨[97, 13], nofun⟩, ⟨[10, 98], nofun⟩] false).lines =
        ⟨[⟨"a", some ⟨"mail.log", 1⟩⟩, ⟨"b", some ⟨"mail.log", 2⟩⟩], false⟩ ∧
      ∃ f, Relation.ReflTransGen Following.Step (Following.start .empty "mail.log" [97]) f ∧
        ∃ n, (f.polls n).Idle ∧ (f.polls n).yielded = [⟨"a\uFFFD", some ⟨"mail.log", 1⟩⟩] := by
  obtain ⟨htexts, hoctets⟩ := readers_agree "mail.log"
  obtain ⟨-, hstream, -⟩ := htexts [("a", .carriageReturnLineFeed)] (some "b")
    [⟨[97, 13], nofun⟩, ⟨[10, 98], nofun⟩] (by decide) (by decide) (by decide)
  obtain ⟨-, -, hfollowed⟩ := hoctets [97, 255, 10] [⟨[97], nofun⟩, ⟨[255, 10], nofun⟩]
    [⟨[97, 255, 10], nofun⟩] (.inr rfl) rfl rfl
  have hgrown : Relation.ReflTransGen Following.Step (Following.start .empty "mail.log" [97])
      ((Following.start .empty "mail.log" [97]).poll.written [97, 255, 10]) :=
    .tail (.single (.poll _)) (.append [255, 10] fun h => absurd h (by decide +kernel))
  obtain ⟨⟨n, hidle⟩, hyielded⟩ := hfollowed .empty [97] _ hgrown rfl (by decide +kernel)
  exact ⟨hstream, _, hgrown, n, hidle, (hyielded n hidle).trans (by decide +kernel)⟩

end MailTrace
