import AccTx.Effect.Run
import AccTx.Effect.Keyed
import AccTx.Firmware.System
import AccTx.Firmware.Shell
import AccTx.Control.Write
import AccTx.Control.Step
import AccTx.Control.Range
import AccTx.Control.Batch
import AccTx.Control.Atomicity
import AccTx.Control.Read
import AccTx.Control.Dump
import AccTx.Control.Timer
import AccTx.Control.Indicators
import AccTx.Control.Interlock
import AccTx.Control.Tick
import AccTx.Control.Start
import AccTx.Control.Window
import AccTx.Control.Store
import AccTx.Control.Command
import AccTx.Control.Volume
import AccTx.Battery.Window
import AccTx.Battery.Apart
import AccTx.Control.Preset
import AccTx.Battery.Limits
import AccTx.Control.Idle
import AccTx.Battery.Average
import AccTx.Battery.Sum
import AccTx.Battery.Resize
import AccTx.Battery.Gauge
import AccTx.Buttons.Debounce
import AccTx.Buttons.Runs
import AccTx.Buttons.Chords
import AccTx.Kernel.Check
import AccTx.Kernel.Schedule
import AccTx.Buttons.Clocked
import AccTx.Console.Serial
import AccTx.Console.Overlong
import AccTx.At.Answer
import AccTx.At.Port
import AccTx.At.Typed
