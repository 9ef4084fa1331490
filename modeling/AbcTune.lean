import AbcTune.Number.Display
import AbcTune.Number.Reading
import AbcTune.Beat
import AbcTune.Pitch
import AbcTune.Meter
import AbcTune.Key
import AbcTune.Tempo
import AbcTune.Clef
import AbcTune.Decoration
import AbcTune.Note
import AbcTune.Tuplet
import AbcTune.Token
import AbcTune.Token.Lexer
import AbcTune.Repeat
import AbcTune.Voice.Table
import AbcTune.Part
import AbcTune.Diagnostic
import AbcTune.Field
import AbcTune.Music.Reading
import AbcTune.Tune.Reading
import AbcTune.Playback.Jukebox
import AbcTune.Tune.Notices
import AbcTune.Playback.Notices
import AbcTune.Control.Response
import AbcTune.Config
import AbcTune.EventSheet
import AbcTune.Main
import AbcTune.Proofs.Text.Mark
import AbcTune.Proofs.Repeat.Nesting
import AbcTune.Proofs.Playback.Queue
import AbcTune.Proofs.Music.OneVoice
import AbcTune.Proofs.Music.Interleaving
import AbcTune.Proofs.Number.Rounding
import AbcTune.Proofs.Beat.Double
import AbcTune.Proofs.Token.Plain
import AbcTune.Proofs.Music.Pitches
import AbcTune.Proofs.Music.Plain
import AbcTune.Proofs.Repeat.Section
import AbcTune.Proofs.Tune.Reading
import AbcTune.Proofs.Field
import AbcTune.Proofs.Token.Line
import AbcTune.Proofs.Tune.Assembly
import AbcTune.Proofs.Tune.Header
import AbcTune.Proofs.Tune.Body
import AbcTune.Proofs.Tune.Repeated
import AbcTune.Proofs.Playback.Sounding
import AbcTune.Proofs.Playback.Moves
import AbcTune.Proofs.Music.Labels
import AbcTune.Proofs.Playback.Requests
import AbcTune.Proofs.Tune.Labels
import AbcTune.Proofs.Tune.Parts
import AbcTune.Proofs.Beat.Order
import AbcTune.Proofs.Beat.Exact
import AbcTune.Proofs.Playback.Steps
import AbcTune.Proofs.Playback.Progress
import AbcTune.Proofs.Playback.Paused
import AbcTune.Proofs.Playback.Position
import AbcTune.Proofs.Tune.LineEnds
import AbcTune.Proofs.Playback.Course
import AbcTune.Proofs.Playback.Order
import AbcTune.Proofs.Playback.Release
import AbcTune.Proofs.Text.Pair
import AbcTune.Proofs.Number.Reading
import AbcTune.Proofs.Number.Display
import AbcTune.Proofs.Control.Request
import AbcTune.Proofs.Control.OneLine
import AbcTune.Proofs.Voice.Clocks
import AbcTune.Proofs.Tune.Merging
import AbcTune.Proofs.Repeat.Lead
import AbcTune.Proofs.Tune.Titles
import AbcTune.Proofs.Control.Replies
import AbcTune.Proofs.Repeat.Division
import AbcTune.Proofs.Repeat.Limit
import AbcTune.Proofs.Token.FieldLine
import AbcTune.Proofs.Repeat.Rewording
import AbcTune.Proofs.Repeat.RewordedPairs
import AbcTune.Proofs.Repeat.RewordedLines
import AbcTune.Proofs.Repeat.RewordedExpansion
import AbcTune.Proofs.Tune.Rewording
import AbcTune.Proofs.Beat.Within
import AbcTune.Proofs.Beat.Span
import AbcTune.Proofs.Beat.Moderate
import AbcTune.Proofs.Music.Lengths
import AbcTune.Proofs.Music.Bounds
import AbcTune.Proofs.Voice.Bounds
import AbcTune.Proofs.Music.Spot
import AbcTune.Proofs.Music.Moderate
import AbcTune.Proofs.Tune.Moderate
import AbcTune.Proofs.Tune.Playable
import AbcTune.Proofs.Playback.Refusals
import AbcTune.Proofs.Voice.Consistent
import AbcTune.Proofs.Tune.Undefined
import AbcTune.Proofs.Field.Rejected
import AbcTune.Proofs.Field.Stages
import AbcTune.Proofs.Voice.Notes
import AbcTune.Proofs.Music.Moves
import AbcTune.Proofs.Music.InRange
import AbcTune.Proofs.Token.Slices
import AbcTune.Proofs.Music.TupletTable
import AbcTune.Proofs.Music.ChordPlaces
import AbcTune.Proofs.Music.Alike
import AbcTune.Proofs.Music.Settings
import AbcTune.Proofs.Music.SettingsRun
import AbcTune.Proofs.Music.Written
import AbcTune.Proofs.Music.Passage
import AbcTune.Proofs.Music.Axis
import AbcTune.Proofs.Music.Ordered
import AbcTune.Proofs.Music.Durations
import AbcTune.Proofs.Music.TiedEnds
import AbcTune.Proofs.Token.Scan
import AbcTune.Proofs.Token.Tiling
import AbcTune.Proofs.Token.LengthText
import AbcTune.Proofs.Token.NoteText
import AbcTune.Proofs.Music.Rejected
import AbcTune.Proofs.Repeat.Doubles
import AbcTune.Proofs.Repeat.Complete
import AbcTune.Proofs.Part.Grammar
import AbcTune.Proofs.Music.Decoding
import AbcTune.Proofs.Music.BarRule
import AbcTune.Proofs.Music.NestedTuplets
import AbcTune.Proofs.Voice.Scaling
import AbcTune.Proofs.Music.Scaling
import AbcTune.Proofs.Music.Tiling
import AbcTune.Proofs.Music.GraceTime
import AbcTune.Proofs.Music.Timing
import AbcTune.Proofs.Music.Melody
import AbcTune.Proofs.Music.GraceFree
import AbcTune.Proofs.Music.Revisions
import AbcTune.Proofs.Tune.PartLayout
import AbcTune.Proofs.Playback.Complete
import AbcTune.Proofs.Playback.Dispatch
import AbcTune.Proofs.Repeat.Preserved
import AbcTune.Proofs.Playback.Gap
import AbcTune.Proofs.Playback.Cursor
import AbcTune.Proofs.Tune.Diagnostics
import AbcTune.Proofs.Voice.Channels
import AbcTune.Proofs.Playback.Pauses
import AbcTune.Proofs.Token.Attributes
import AbcTune.Proofs.Beat.Latest
import AbcTune.Proofs.Tune.Visiting
