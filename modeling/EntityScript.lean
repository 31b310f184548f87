import EntityScript.Main
import EntityScript.Proofs.Line
import EntityScript.Proofs.Changes
import EntityScript.Proofs.Effects
import EntityScript.Proofs.Turns
import EntityScript.Proofs.Calls
import EntityScript.Proofs.Scans
import EntityScript.Proofs.Places
import EntityScript.Proofs.Budget
import EntityScript.Proofs.Keywords
import EntityScript.Proofs.Tree
import EntityScript.Proofs.Meaning
import EntityScript.Proofs.Actions
import EntityScript.Proofs.Refinement
import EntityScript.Proofs.Handlers
import EntityScript.Proofs.Braces
import EntityScript.Proofs.Gotos
import EntityScript.Proofs.Pool
import EntityScript.Proofs.Views
import EntityScript.Proofs.Deeds
import EntityScript.Proofs.Moments
import EntityScript.Proofs.Stirs
import EntityScript.Proofs.Cancelled
import EntityScript.Proofs.Ticks
import EntityScript.Proofs.Bytes
import EntityScript.Proofs.Cursor
import EntityScript.Proofs.Ownership
import EntityScript.Proofs.Sender
import EntityScript.Proofs.Frame
import EntityScript.Proofs.Switches
import EntityScript.Proofs.Room
import EntityScript.Proofs.Widening
import EntityScript.Proofs.Limits
import EntityScript.Proofs.Numbering
import EntityScript.Proofs.Letters
import EntityScript.Proofs.Index
import EntityScript.Proofs.Headers
import EntityScript.Proofs.Worlds
import EntityScript.Proofs.Delivery
import EntityScript.Proofs.Calm
import EntityScript.Proofs.Vocabulary
import EntityScript.Proofs.Apart
import EntityScript.Proofs.Words
import EntityScript.Proofs.Targets
import EntityScript.Proofs.Lexemes
import EntityScript.Proofs.Layouts
import EntityScript.Proofs.Branches
import EntityScript.Proofs.Outward
import EntityScript.Proofs.Names
import EntityScript.Proofs.Wholes
import EntityScript.Proofs.Rearming
import EntityScript.Proofs.Swaps
import EntityScript.Proofs.Chances
import EntityScript.Proofs.Firings
import EntityScript.Proofs.Slots
import EntityScript.Proofs.Schedule
import EntityScript.Proofs.Tables
import EntityScript.Proofs.Sigils
import EntityScript.Proofs.Rescan
import EntityScript.Proofs.Readback
import EntityScript.Proofs.Numerals
import EntityScript.Proofs.Reports
import EntityScript.Proofs.Options
import EntityScript.Proofs.Outlines
import EntityScript.Proofs.Tildes
import EntityScript.Proofs.OneLine
